import Staged.Proofs.Solution.Points
import Staged.Flow.Table
import Mathlib.Data.Set.Function

/-!
Solutions compared. More knowledge at the start makes more knowledge everywhere, and neither the
names of the points nor the order in which a flow lists its successors and variables matters.
-/

namespace Staged.Flow

/-! ### Two seeds -/

section

variable {P : Type} [DecidableEq P]

/-- **Solving is monotone in the seed.** If one seed knows no more than another, whatever answers
the two store, then its solution knows no more at any point. -/
theorem solve_mono_seed (f : Flow P) (mono : ∀ p d e, d.le e → f.decides p d → f.decides p e)
    {seed seed' : Division} (h : seed.le seed') :
    let g := f.dependencies
    ∀ n ∈ g.nodes, ∃ d d', (g.solve f.decides seed).get? n.point = some d ∧
      (g.solve f.decides seed').get? n.point = some d' ∧ d.le d' := by
  intro g n hn
  obtain ⟨p, hp, rfl⟩ := mem_nodes_iff.1 hn
  obtain ⟨d, hd⟩ := Option.isSome_iff_exists.1 ((isSome_get?_solve mono seed).2 hp)
  obtain ⟨d', hd'⟩ := Option.isSome_iff_exists.1 ((isSome_get?_solve mono seed').2 hp)
  refine ⟨d, d', hd, hd', Division.le_iff.2 fun v hv => ?_⟩
  have hknown : (g.solve f.decides seed).isKnown p v := by simpa [Solution.isKnown, g, hd] using hv
  obtain ⟨F, hF, hFv⟩ := (isKnown_solve_iff mono hp).1 hknown
  have hknown' := (isKnown_solve_iff mono hp).2 ⟨F, hF.mono_seed h, hFv⟩
  simpa [Solution.isKnown, hd'] using hknown'

/-- Variable 0 is counted up in a loop as far as variable 1. Without knowledge of variable 1 it is
known at the entry alone, and with it also where it is counted. -/
theorem solve_mono_seed_counting :
    let f := ofRows #[⟨[0], [], [1]⟩, ⟨[], [0, 1], [2, 3]⟩, ⟨[0], [0], [1]⟩, ⟨[], [0], []⟩]
      .allUsesKnown 0
    let seed := Division.ofList [(0, true), (2, false)]
    let seed' := Division.ofList [(0, true), (1, true)]
    let s := f.dependencies.solve f.decides seed
    let s' := f.dependencies.solve f.decides seed'
    seed.le seed' ∧ (s.isKnown 0 0 ∧ ¬ s.isKnown 2 0) ∧ s'.isKnown 0 0 ∧ s'.isKnown 2 0 := by
  intro f seed seed' s s'
  have hle : seed.le seed' := by decide
  have h := solve_mono_seed f (decides_ofRows_mono _ _ _) hle
  obtain ⟨n, hn, hpoint⟩ : ∃ n ∈ f.dependencies.nodes, n.point = 0 := by decide +kernel
  obtain ⟨d, d', hd, hd', hdd'⟩ := h n hn
  rw [hpoint] at hd hd'
  have hknown : s.isKnown 0 0 := by decide +kernel
  have hknown' : s'.isKnown 0 0 := by
    have hv : d.isKnown 0 := by simpa [s, Solution.isKnown, hd] using hknown
    simpa [s', Solution.isKnown, hd'] using Division.le_iff.1 hdd' 0 hv
  exact ⟨hle, ⟨hknown, by decide +kernel⟩, hknown', by decide +kernel⟩

end

/-! ### Two flows -/

section

variable {P Q : Type} {f : Flow P} {g : Flow Q} {e : P → Q} {p q r : P}

/-- The flow `g` is `f` with its points renamed by `e`. Successors may be listed in another order,
and so may definitions and uses, which may also be listed more or less often. -/
structure Renames (f : Flow P) (g : Flow Q) (e : P → Q) : Prop where
  injOn : Set.InjOn e {p | f.Reaches f.entry p}
  entry : e f.entry = g.entry
  successors : ∀ p, f.Reaches f.entry p → (g.successors (e p)).Perm ((f.successors p).map e)
  definitions : ∀ p, f.Reaches f.entry p → ∀ v, v ∈ g.definitions (e p) ↔ v ∈ f.definitions p
  uses : ∀ p, f.Reaches f.entry p → ∀ v, v ∈ g.uses (e p) ↔ v ∈ f.uses p
  decides : ∀ p, f.Reaches f.entry p → ∀ d, g.decides (e p) d = f.decides p d

namespace Renames

lemma mem_successors (h : f.Renames g e) (hp : f.Reaches f.entry p) {b : Q} :
    b ∈ g.successors (e p) ↔ ∃ q ∈ f.successors p, e q = b := by
  rw [(h.successors p hp).mem_iff, List.mem_map]

lemma reaches (h : f.Renames g e) (hp : f.Reaches f.entry p) (hpq : f.Reaches p q) :
    g.Reaches (e p) (e q) := by
  induction hpq with
  | refl => exact .refl
  | @tail q r hpq hr ih => exact ih.tail ((h.mem_successors (hp.trans hpq)).2 ⟨r, hr, rfl⟩)

lemma ahead (h : f.Renames g e) (hp : f.Reaches f.entry p) (hpq : f.Ahead p q) :
    g.Ahead (e p) (e q) := by
  obtain ⟨r, hr, hrq⟩ := Relation.TransGen.head'_iff.1 hpq
  exact .head' ((h.mem_successors hp).2 ⟨r, hr, rfl⟩) (h.reaches (hp.tail hr) hrq)

/-- Nothing but renamed points can be reached. -/
lemma exists_of_reaches (h : f.Renames g e) {b : Q} (hb : g.Reaches g.entry b) :
    ∃ p, f.Reaches f.entry p ∧ e p = b := by
  induction hb with
  | refl => exact ⟨f.entry, .refl, h.entry⟩
  | tail _ hb ih =>
    obtain ⟨p, hp, rfl⟩ := ih
    obtain ⟨q, hq, rfl⟩ := (h.mem_successors hp).1 hb
    exact ⟨q, hp.tail hq, rfl⟩

lemma reaches_entry (h : f.Renames g e) (hp : f.Reaches f.entry p) : g.Reaches g.entry (e p) :=
  h.entry ▸ h.reaches .refl hp

lemma dependsOn (h : f.Renames g e) (hp : f.Reaches f.entry p) (hq : f.Reaches f.entry q)
    (hdepends : f.dependsOn p q) : g.dependsOn (e p) (e q) := by
  simp only [Flow.dependsOn, List.any_eq_true, List.contains_iff_mem] at hdepends ⊢
  obtain ⟨u, huse, hdef⟩ := hdepends
  exact ⟨u, (h.uses p hp u).2 huse, (h.definitions q hq u).2 hdef⟩

lemma carried (h : f.Renames g e) (hp : f.Reaches f.entry p) (hcarried : f.Carried p) :
    g.Carried (e p) := by
  obtain ⟨q, hqp, hpq, hdepends⟩ := hcarried
  have hq := hp.ahead hpq
  exact ⟨e q, h.reaches hq hqp, h.ahead hp hpq, h.dependsOn hp hq hdepends⟩

lemma mayEnd (h : f.Renames g e) (hp : f.Reaches f.entry p) (hr : f.MayEnd p r) :
    g.MayEnd (e p) (e r) := by
  obtain ⟨hrp, hpr, hlen⟩ := hr
  have hreach := hp.ahead hpr
  refine ⟨h.reaches hreach hrp, h.ahead hp hpr, ?_⟩
  rwa [(h.successors r hreach).length_eq, List.length_map]

/-- Renamed back, the flow is the one it was. -/
lemma exists_inverse (h : f.Renames g e) :
    ∃ e' : Q → P, (∀ p, f.Reaches f.entry p → e' (e p) = p) ∧ g.Renames f e' := by
  have : Nonempty P := ⟨f.entry⟩
  let e' : Q → P := Function.invFunOn e {p | f.Reaches f.entry p}
  have hinv : ∀ p, f.Reaches f.entry p → e' (e p) = p := h.injOn.leftInvOn_invFunOn
  have hback {motive : Q → Prop} (hmotive : ∀ p, f.Reaches f.entry p → motive (e p)) (b : Q)
      (hb : g.Reaches g.entry b) : motive b := by
    obtain ⟨p, hp, rfl⟩ := h.exists_of_reaches hb
    exact hmotive p hp
  refine ⟨e', hinv, ⟨?_, ?_, hback fun p hp => ?_, hback fun p hp v => ?_, hback fun p hp v => ?_,
    hback fun p hp d => ?_⟩⟩
  · intro a ha b hb hab
    obtain ⟨p, hp, rfl⟩ := h.exists_of_reaches ha
    obtain ⟨q, hq, rfl⟩ := h.exists_of_reaches hb
    rw [hinv p hp, hinv q hq] at hab
    rw [hab]
  · rw [← h.entry, hinv _ .refl]
  · have hsame : ((f.successors p).map e).map e' = f.successors p := by
      rw [List.map_map]
      exact (List.map_congr_left fun q hq => hinv q (hp.tail hq)).trans (List.map_id _)
    have hperm := (h.successors p hp).map e'
    rw [hsame] at hperm
    rw [hinv p hp]
    exact hperm.symm
  · rw [hinv p hp, h.definitions p hp]
  · rw [hinv p hp, h.uses p hp]
  · rw [hinv p hp, h.decides p hp]

/-- What is consistent after the renaming was so before it. -/
lemma consistent (h : f.Renames g e) {seed : Division} {F : Q → Division}
    (hF : g.Consistent seed F) : f.Consistent seed (F ∘ e) := by
  refine ⟨fun p hp => hF.le_seed _ (h.reaches_entry hp), fun p q hq hqp hne hdepends => ?_,
    fun p hp v hv hk u hu => ?_, fun p hp v hv hk hcarried r hr => ?_,
    fun p hp v hv hk hcarried => ?_⟩
  · have hp : f.Reaches f.entry p := hq.trans hqp
    exact hF.le_source _ _ (h.reaches_entry hq) (h.reaches hq hqp)
      (fun heq => hne (h.injOn hq hp heq)) (h.dependsOn hp hq hdepends)
  · exact hF.knows_uses _ (h.reaches_entry hp) v ((h.definitions p hp v).2 hv) hk u
      ((h.uses p hp u).2 hu)
  · rw [← h.decides r (hp.ahead hr.2.1)]
    exact hF.decides_guard _ (h.reaches_entry hp) v ((h.definitions p hp v).2 hv) hk
      (h.carried hp hcarried) _ (h.mayEnd hp hr)
  · obtain ⟨b, hb⟩ := hF.bounded _ (h.reaches_entry hp) v ((h.definitions p hp v).2 hv) hk
      (h.carried hp hcarried)
    obtain ⟨e', hinv, h'⟩ := h.exists_inverse
    have hend := h'.mayEnd (h.reaches_entry hp) hb
    rw [hinv p hp] at hend
    exact ⟨e' b, hend⟩

end Renames

variable [DecidableEq P] [DecidableEq Q]

/-- **The solution depends on neither names nor order.** -/
theorem solve_renames (h : f.Renames g e)
    (mono : ∀ p d d', d.le d' → f.decides p d → f.decides p d')
    (mono' : ∀ q d d', d.le d' → g.decides q d → g.decides q d') (seed : Division) :
    (∀ q, g.Reaches g.entry q ↔ ∃ p, f.Reaches f.entry p ∧ e p = q) ∧
      ∀ p, f.Reaches f.entry p → ∃ d d',
        (f.dependencies.solve f.decides seed).get? p = some d ∧
        (g.dependencies.solve g.decides seed).get? (e p) = some d' ∧
        ∀ v, d.isKnown v = d'.isKnown v := by
  refine ⟨fun q => ⟨h.exists_of_reaches, ?_⟩, fun p hp => ?_⟩
  · rintro ⟨p, hp, rfl⟩
    exact h.reaches_entry hp
  have hp' := h.reaches_entry hp
  obtain ⟨d, hd⟩ := Option.isSome_iff_exists.1 ((isSome_get?_solve mono seed).2 hp)
  obtain ⟨d', hd'⟩ := Option.isSome_iff_exists.1 ((isSome_get?_solve mono' seed).2 hp')
  have hiff (v : Var) : (f.dependencies.solve f.decides seed).isKnown p v ↔
      (g.dependencies.solve g.decides seed).isKnown (e p) v := by
    rw [isKnown_solve_iff mono hp, isKnown_solve_iff mono' hp']
    constructor
    · rintro ⟨F, hF, hv⟩
      obtain ⟨e', hinv, h'⟩ := h.exists_inverse
      exact ⟨F ∘ e', h'.consistent hF, by rwa [Function.comp_apply, hinv p hp]⟩
    · rintro ⟨F, hF, hv⟩
      exact ⟨F ∘ e, h.consistent hF, hv⟩
  refine ⟨d, d', hd, hd', fun v => Bool.eq_iff_iff.2 ?_⟩
  simpa [Solution.isKnown, hd, hd'] using hiff v

/-- The loop of a test, a body and an exit, with its points numbered otherwise and its lists turned
round: the test knows variable 0 in both. -/
theorem solve_renames_loop :
    let f := ofRows #[⟨[], [0, 1], [1, 2]⟩, ⟨[0], [0], [0]⟩, ⟨[], [0], []⟩] .allUsesKnown 0
    let g := ofRows #[⟨[], [0], []⟩, ⟨[], [1, 0], [0, 2]⟩, ⟨[0], [0, 0], [1]⟩] .allUsesKnown 1
    let e (p : Nat) : Nat := (p + 1) % 3
    let seed := Division.ofList [(0, true), (1, true)]
    f.Renames g e ∧ (f.dependencies.solve f.decides seed).isKnown 0 0 ∧
      (g.dependencies.solve g.decides seed).isKnown 1 0 := by
  intro f g e seed
  have hpoint {p : Nat} (hp : f.Reaches f.entry p) : p ∈ [0, 1, 2] := by
    induction hp with
    | refl => decide
    | @tail p q _ hq ih =>
      have hclosed : ∀ p ∈ [0, 1, 2], ∀ q ∈ f.successors p, q ∈ [0, 1, 2] := by decide
      exact hclosed p ih q hq
  have hcases {motive : Nat → Prop} (h : motive 0 ∧ motive 1 ∧ motive 2) (p : Nat)
      (hp : f.Reaches f.entry p) : motive p := by
    have hp := hpoint hp
    simp only [List.mem_cons, List.not_mem_nil, or_false] at hp
    rcases hp with rfl | rfl | rfl
    exacts [h.1, h.2.1, h.2.2]
  have hrenames : f.Renames g e := by
    refine ⟨fun p hp q hq h => ?_, rfl, hcases (by decide), hcases ?_, hcases ?_, hcases ?_⟩
    · have hinj : ∀ p ∈ [0, 1, 2], ∀ q ∈ [0, 1, 2], e p = e q → p = q := by decide
      exact hinj p (hpoint hp) q (hpoint hq) h
    · simp [f, g, e, ofRows]
    · simp [f, g, e, ofRows, or_comm]
    · simp [f, g, e, ofRows, Guard.decides, Bool.and_comm]
  have h := solve_renames hrenames (decides_ofRows_mono _ _ _) (decides_ofRows_mono _ _ _) seed
  obtain ⟨d, d', hd, hd', hdd'⟩ := h.2 0 .refl
  have hknown : (f.dependencies.solve f.decides seed).isKnown 0 0 := by decide +kernel
  refine ⟨hrenames, hknown, ?_⟩
  rw [Solution.isKnown, hd, Option.any_some, hdd'] at hknown
  change ((g.dependencies.solve g.decides seed).get? (e 0)).any (·.isKnown 0)
  rwa [hd', Option.any_some]

end

end Staged.Flow
