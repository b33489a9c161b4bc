import Staged.Proofs.Graph.Parts
import Mathlib.Data.List.Nodup
import Mathlib.Data.List.Perm.Subperm

/-!
Where jumps to labels lead. Settling a graph follows the redirects from each point for as long as
there are redirects, and that is always far enough: a chain that has not ended by then runs into a
cycle. Redirects lead from the placeholder of a label to the entry of its statement, so chains of
redirects are chains of labels that stand before jumps.
-/

namespace Staged

namespace Draft

/-! ### Following redirects -/

variable {redirects : List (PointId × PointId)} {p q r : PointId}

/-- `p` is redirected to `q`. -/
def Leads (redirects : List (PointId × PointId)) (p q : PointId) : Prop :=
  redirects.lookup p = some q

lemma rightUnique_leads : Relator.RightUnique (Leads redirects) :=
  fun _ _ _ h h' => Option.some.inj (h.symm.trans h')

lemma not_leads_of_lookup_eq_none (h : redirects.lookup p = none) : ¬ Leads redirects p q := by
  simp [Leads, h]

/-- No redirect leads from `p` to another point. -/
def Rests (redirects : List (PointId × PointId)) (p : PointId) : Prop :=
  ∀ q, Leads redirects p q → q = p

lemma Rests.eq_of_reaches (hp : Rests redirects p)
    (h : Relation.ReflTransGen (Leads redirects) p q) : q = p := by
  induction h with
  | refl => rfl
  | tail _ hab ih =>
    subst ih
    exact hp _ hab

lemma reaches_follow (steps : Nat) (p : PointId) :
    Relation.ReflTransGen (Leads redirects) p (follow redirects steps p) := by
  fun_induction follow redirects steps p with
  | case1 => exact .refl
  | case2 => exact .refl
  | case3 p steps q hlookup _ ih => exact .head hlookup ih
  | case4 => exact .refl

/-- From wherever a cycle leads, it leads back. -/
lemma reaches_back (hp : Relation.TransGen (Leads redirects) p p)
    (h : Relation.ReflTransGen (Leads redirects) p q) :
    Relation.ReflTransGen (Leads redirects) q p := by
  induction h with
  | refl => exact .refl
  | @tail a b _ hab ih =>
    obtain ⟨c, hac, hcp⟩ := Relation.TransGen.head'_iff.1 (Relation.TransGen.trans_right ih hp)
    rwa [rightUnique_leads hab hac]

/-- A cycle is left by none of its points. -/
lemma cycles_of_reaches (hp : Relation.TransGen (Leads redirects) p p)
    (h : Relation.ReflTransGen (Leads redirects) p q) :
    Relation.TransGen (Leads redirects) q q :=
  (Relation.TransGen.trans_right (reaches_back hp h) hp).trans_left h

/-- What reaches a point of rest reaches no two points that lead to each other. -/
lemma eq_of_reaches_rests (h : Relation.ReflTransGen (Leads redirects) p q)
    (hq : Rests redirects q) {a b : PointId} (ha : Relation.ReflTransGen (Leads redirects) p a)
    (hab : Relation.TransGen (Leads redirects) a b)
    (hba : Relation.TransGen (Leads redirects) b a) : a = b := by
  have hqa : Relation.ReflTransGen (Leads redirects) q a := by
    rcases h.total_of_right_unique rightUnique_leads ha with hqa | haq
    · exact hqa
    · exact reaches_back (hab.trans hba) haq
  rw [hq.eq_of_reaches hqa, hq.eq_of_reaches (hqa.trans hab.to_reflTransGen)]

/-- As long as it leads to another point, each step takes a redirect that was not taken before. -/
lemma rests_follow_of_seen {steps : Nat} {seen : List PointId} (hseen : seen.Nodup)
    (hkeys : seen ⊆ redirects.map Prod.fst) (hlength : redirects.length < steps + seen.length)
    (hreach : ∀ a ∈ seen, Relation.TransGen (Leads redirects) a p)
    (h : ∀ a b, Relation.ReflTransGen (Leads redirects) p a →
      Relation.TransGen (Leads redirects) a b → Relation.TransGen (Leads redirects) b a → a = b) :
    Rests redirects (follow redirects steps p) := by
  induction steps generalizing p seen with
  | zero =>
    have hle := (List.subperm_of_subset hseen hkeys).length_le
    rw [List.length_map] at hle
    omega
  | succ steps ih =>
    rw [follow]
    rcases hlookup : redirects.lookup p with _ | q
    · exact fun r hr => absurd hr (not_leads_of_lookup_eq_none hlookup)
    have hpq : Leads redirects p q := hlookup
    by_cases hne : q = p
    · simp only [if_pos hne]
      exact fun r hr => (rightUnique_leads hr hpq).trans hne
    simp only [if_neg hne]
    -- if `p` had been seen before, `q` would lead back to it
    have hfresh : p ∉ seen := fun hp => by
      obtain ⟨r, hpr, hrp⟩ := Relation.TransGen.head'_iff.1 (hreach p hp)
      rw [rightUnique_leads hpr hpq] at hrp
      rcases Relation.reflTransGen_iff_eq_or_transGen.1 hrp with heq | hqp
      · exact hne heq.symm
      · exact hne (h p q .refl (.single hpq) hqp).symm
    have hkey : p ∈ redirects.map Prod.fst :=
      List.mem_map_of_mem (mem_of_lookup_eq_some hlookup)
    have hseen : (p :: seen).Nodup := List.nodup_cons.2 ⟨hfresh, hseen⟩
    refine ih hseen (List.cons_subset.2 ⟨hkey, hkeys⟩) (by simp only [List.length_cons]; omega)
      ?_ fun a b ha => h a b (.head hpq ha)
    intro a ha
    rcases List.mem_cons.1 ha with rfl | ha
    · exact .single hpq
    · exact .tail (hreach a ha) hpq

variable {d : Draft}

lemma reaches_resolve (p : PointId) : Relation.ReflTransGen (Leads d.redirects) p (d.resolve p) :=
  reaches_follow _ p

/-- The redirects are followed to a point of rest, unless two points lead to each other. -/
lemma rests_resolve (h : ∀ a b, Relation.ReflTransGen (Leads d.redirects) p a →
    Relation.TransGen (Leads d.redirects) a b → Relation.TransGen (Leads d.redirects) b a → a = b) :
    Rests d.redirects (d.resolve p) :=
  rests_follow_of_seen List.nodup_nil (List.nil_subset _) (by simp) (by simp) h

/-- Where no cycle is reached, the redirects are followed to their end. -/
lemma lookup_resolve (h : ∀ q, Relation.ReflTransGen (Leads d.redirects) p q →
    ¬ Relation.TransGen (Leads d.redirects) q q) : d.redirects.lookup (d.resolve p) = none := by
  have hrests : Rests d.redirects (d.resolve p) :=
    rests_resolve fun a b ha hab hba => absurd (hab.trans hba) (h a ha)
  refine Option.eq_none_iff_forall_ne_some.2 fun q hq => h _ (reaches_resolve p) (.single ?_)
  exact hrests q hq ▸ hq

lemma resolve_eq_of_reaches (h : Relation.ReflTransGen (Leads d.redirects) p q)
    (hq : Rests d.redirects q) : d.resolve p = q := by
  have hend : Rests d.redirects (d.resolve p) :=
    rests_resolve fun a b ha => eq_of_reaches_rests h hq ha
  rcases h.total_of_right_unique rightUnique_leads (reaches_resolve p) with hr | hr
  · exact hq.eq_of_reaches hr
  · exact (hend.eq_of_reaches hr).symm

end Draft

/-! ### Chains of labels -/

namespace Site

/-- The statement with the label `l` is a jump to `m`. -/
def Forwards (c : Site) (l m : String) : Prop := ∃ p, c.EntersAt l p ∧ c.JumpsTo m p

/-- From `l` on, labels lead to the statement at `p`, which is no jump to a label. -/
def Ends (c : Site) (l : String) (p : PointId) : Prop :=
  ∃ m, Relation.ReflTransGen c.Forwards l m ∧ c.EntersAt m p ∧ ∀ n, ¬ c.JumpsTo n p

/-- From `l` on, labels lead into a cycle. -/
def Cycles (c : Site) (l : String) : Prop :=
  ∃ m, Relation.ReflTransGen c.Forwards l m ∧ Relation.TransGen c.Forwards m m

/-- The tables are empty before the statement, which defines no label twice. -/
structure Fresh (c : Site) : Prop where
  slots_eq : c.draft.slots = []
  entries_eq : c.draft.entries = []
  nodup : c.stmt.labels.Nodup

variable {c : Site} {l m : String} {p q : PointId}

namespace Fresh

lemma tidy (h : c.Fresh) : c.after.Tidy := by
  refine c.recorded.tidy ⟨?_, ?_⟩ <;> simp [h.slots_eq]

lemma lookup_slots_iff (h : c.Fresh) : c.after.slots.lookup l = some p ↔ c.JumpsTo l p := by
  rw [c.recorded.lookup_slots, h.slots_eq]
  simp

lemma mem_slots_iff (h : c.Fresh) : (l, p) ∈ c.after.slots ↔ c.JumpsTo l p := by
  rw [← h.lookup_slots_iff]
  exact ⟨h.tidy.lookup_slots l p, mem_of_lookup_eq_some⟩

lemma mem_entries_iff (h : c.Fresh) : (l, p) ∈ c.after.entries ↔ c.EntersAt l p := by
  rw [c.recorded.mem_entries, h.entries_eq]
  simp

lemma nodup_entries (h : c.Fresh) : (c.after.entries.map Prod.fst).Nodup := by
  rw [List.nodup_iff_count_le_one]
  intro l
  rw [c.recorded.count_entries, h.entries_eq]
  simpa using List.nodup_iff_count_le_one.1 h.nodup l

lemma lookup_entries_iff (h : c.Fresh) :
    c.after.entries.lookup l = some p ↔ c.EntersAt l p := by
  rw [← h.mem_entries_iff]
  refine ⟨mem_of_lookup_eq_some, fun hmem => ?_⟩
  obtain ⟨before, after, heq⟩ := List.append_of_mem hmem
  refine List.lookup_eq_some_iff.2 ⟨before, after, heq, fun entry hentry => ?_⟩
  have hnodup := h.nodup_entries
  rw [heq, List.map_append, List.nodup_append] at hnodup
  have hne : entry.1 ≠ l := hnodup.2.2 _ (List.mem_map_of_mem hentry) _ (by simp)
  simpa using hne.symm

/-- A label that is defined has an entry. -/
lemma exists_entersAt (h : c.Fresh) (hl : l ∈ c.stmt.labels) : ∃ p, c.EntersAt l p := by
  have hmem : l ∈ c.after.entries.map Prod.fst := by
    rw [← List.count_pos_iff, c.recorded.count_entries]
    exact Nat.lt_of_lt_of_le (List.count_pos_iff.2 hl) (Nat.le_add_left _ _)
  obtain ⟨⟨_, p⟩, hp, rfl⟩ := List.mem_map.1 hmem
  exact ⟨p, h.mem_entries_iff.1 hp⟩

lemma eq_of_jumpsTo (h : c.Fresh) (hl : c.JumpsTo l p) (hm : c.JumpsTo m p) : l = m :=
  h.tidy.eq_of_mem (h.mem_slots_iff.2 hl) (h.mem_slots_iff.2 hm)

/-- Redirects lead from the placeholder of a label to the statement with that label. -/
lemma leads_iff (h : c.Fresh) :
    Draft.Leads c.after.redirects p q ↔ ∃ l, c.JumpsTo l p ∧ c.EntersAt l q := by
  have hmem {p q : PointId} :
      (p, q) ∈ c.after.redirects ↔ ∃ l, c.JumpsTo l p ∧ c.EntersAt l q := by
    simp [Draft.redirects, ← h.mem_slots_iff, ← h.lookup_entries_iff]
  rw [← hmem]
  refine ⟨mem_of_lookup_eq_some, fun hpq => ?_⟩
  have hsome : c.after.redirects.lookup p ≠ none := by
    rw [ne_eq, List.lookup_eq_none_iff]
    exact fun hnone => by simpa using hnone _ hpq
  obtain ⟨q', hq'⟩ := Option.ne_none_iff_exists'.1 hsome
  -- another redirect from here would come from the same label
  obtain ⟨l, hl, hentry⟩ := hmem.1 hpq
  obtain ⟨l', hl', hentry'⟩ := hmem.1 (mem_of_lookup_eq_some hq')
  obtain rfl := h.eq_of_jumpsTo hl hl'
  have heq := (h.lookup_entries_iff.2 hentry).symm.trans (h.lookup_entries_iff.2 hentry')
  rw [Draft.Leads, hq', ← heq]

/-- Redirects between placeholders are labels that stand before jumps. -/
lemma forwards_of_leads (h : c.Fresh)
    (hpq : Relation.TransGen (Draft.Leads c.after.redirects) p q) (hl : c.JumpsTo l p)
    (hm : c.JumpsTo m q) : Relation.TransGen c.Forwards l m := by
  induction hpq generalizing m with
  | single hpq =>
    obtain ⟨l', hl', hentry⟩ := h.leads_iff.1 hpq
    obtain rfl := h.eq_of_jumpsTo hl hl'
    exact .single ⟨_, hentry, hm⟩
  | tail _ hbq ih =>
    obtain ⟨l', hl', hentry⟩ := h.leads_iff.1 hbq
    exact .tail (ih hl') ⟨_, hentry, hm⟩

/-- From the placeholder of a label, redirects lead to placeholders and to the end of the chain. -/
lemma jumpsTo_or_ends_of_leads (h : c.Fresh)
    (hpq : Relation.ReflTransGen (Draft.Leads c.after.redirects) p q) (hl : c.JumpsTo l p) :
    (∃ m, Relation.ReflTransGen c.Forwards l m ∧ c.JumpsTo m q) ∨ c.Ends l q := by
  induction hpq with
  | refl => exact .inl ⟨l, .refl, hl⟩
  | @tail a b _ hab ih =>
    obtain ⟨m', hm', hentry⟩ := h.leads_iff.1 hab
    rcases ih with ⟨m, hlm, hm⟩ | ⟨m, -, -, hend⟩
    · obtain rfl := h.eq_of_jumpsTo hm hm'
      by_cases hjump : ∃ n, c.JumpsTo n b
      · obtain ⟨n, hn⟩ := hjump
        exact .inl ⟨n, .tail hlm ⟨b, hentry, hn⟩, hn⟩
      · exact .inr ⟨m, hlm, hentry, fun n hn => hjump ⟨n, hn⟩⟩
    · exact absurd hm' (hend m')

lemma leads_of_forwards (h : c.Fresh) (hlm : Relation.ReflTransGen c.Forwards l m)
    (hl : c.JumpsTo l p) :
    ∃ q, Relation.ReflTransGen (Draft.Leads c.after.redirects) p q ∧ c.JumpsTo m q := by
  induction hlm with
  | refl => exact ⟨p, .refl, hl⟩
  | tail _ hab ih =>
    obtain ⟨q, hpq, hq⟩ := ih
    obtain ⟨r, hentry, hr⟩ := hab
    exact ⟨r, .tail hpq (h.leads_iff.2 ⟨_, hq, hentry⟩), hr⟩

lemma rests (h : c.Fresh) (hp : ∀ l, ¬ c.JumpsTo l p) : Draft.Rests c.after.redirects p := by
  intro q hpq
  obtain ⟨l, hl, -⟩ := h.leads_iff.1 hpq
  exact absurd hl (hp l)

/-! ### Settled jumps -/

lemma resolve_eq_self (h : c.Fresh) (hp : ∀ l, ¬ c.JumpsTo l p) : c.after.resolve p = p :=
  Draft.resolve_eq_of_reaches .refl (h.rests hp)

/-- A jump leads to the statement in which the chain of its label ends. -/
lemma resolve_eq_of_ends (h : c.Fresh) (hl : c.JumpsTo l p) (hq : c.Ends l q) :
    c.after.resolve p = q := by
  obtain ⟨m, hlm, hentry, hend⟩ := hq
  obtain ⟨r, hpr, hr⟩ := h.leads_of_forwards hlm hl
  exact Draft.resolve_eq_of_reaches (.tail hpr (h.leads_iff.2 ⟨m, hr, hentry⟩))
    (h.rests hend)

/-- A jump whose label has no end is left at a placeholder. -/
lemma exists_jumpsTo_resolve (h : c.Fresh) (hl : c.JumpsTo l p) (hend : ∀ q, ¬ c.Ends l q) :
    ∃ m, c.JumpsTo m (c.after.resolve p) := by
  obtain ⟨m, -, hm⟩ | hq := h.jumpsTo_or_ends_of_leads (Draft.reaches_resolve p) hl
  · exact ⟨m, hm⟩
  · exact absurd hq (hend _)

/-- A placeholder is left only where its label is not defined or leads into a cycle. -/
lemma cycles_of_jumpsTo_resolve (h : c.Fresh) (hl : c.JumpsTo l (c.after.resolve p))
    (hdefined : l ∈ c.stmt.labels) : c.Cycles l := by
  obtain ⟨q, hentry⟩ := h.exists_entersAt hdefined
  have hlead : Draft.Leads c.after.redirects (c.after.resolve p) q := h.leads_iff.2 ⟨l, hl, hentry⟩
  obtain ⟨r, hpr, hcycle⟩ : ∃ r, Relation.ReflTransGen (Draft.Leads c.after.redirects) p r ∧
      Relation.TransGen (Draft.Leads c.after.redirects) r r := by
    by_contra hnone
    have hlookup := Draft.lookup_resolve fun q hpq hq => hnone ⟨q, hpq, hq⟩
    exact Draft.not_leads_of_lookup_eq_none hlookup hlead
  rcases (Draft.reaches_resolve p).total_of_right_unique Draft.rightUnique_leads hpr with hr | hr
  · obtain ⟨_, hstep, -⟩ := Relation.TransGen.head'_iff.1 hcycle
    obtain ⟨m, hm, -⟩ := h.leads_iff.1 hstep
    refine ⟨m, ?_, h.forwards_of_leads hcycle hm hm⟩
    rcases Relation.reflTransGen_iff_eq_or_transGen.1 hr with rfl | hr
    · rw [h.eq_of_jumpsTo hl hm]
    · exact (h.forwards_of_leads hr hl hm).to_reflTransGen
  · exact ⟨l, .refl, h.forwards_of_leads (Draft.cycles_of_reaches hcycle hr) hl hl⟩

end Fresh

end Site

namespace Stmt

/-- The statement as `analyze` compiles it. -/
def outermost (s : Stmt) (next : PointId) (g : FlowGraph) : Site :=
  ⟨[], none, s, next, { graph := g }⟩

/-- **Jumps to labels are settled.** The entry and the points of the graph are those that compiling
made, with all of their handles sent on. A handle that is the placeholder of no label stays as it
is. The placeholder of a label is sent on to the statement in which the chain of labels from there
ends, and where the chain has no end, to a point where control stops at a jump. If the placeholder
of a label is still in use after that, the label is not defined or its chain runs into a cycle. -/
theorem analyze_settles (s : Stmt) (hs : s.labels.Nodup) (g : FlowGraph) (next : PointId) :
    let c := s.outermost next g
    let settled := c.after.resolve
    let r := s.analyze next { graph := g }
    (r.1 = settled c.entry ∧
        ∀ i, r.2.graph.get? i = (c.after.graph.get? i).map (·.redirect settled)) ∧
      (∀ p, (∀ l, ¬ c.JumpsTo l p) → settled p = p) ∧
      (∀ l ∈ s.gotos, ∃ p, c.JumpsTo l p) ∧
      (∀ l p, c.JumpsTo l p →
        (∀ q, c.Ends l q → settled p = q) ∧
        ((∀ q, ¬ c.Ends l q) →
          ∃ m, r.2.graph.get? (settled p) = some (.unsupported (.jump .goTo (some m))))) ∧
      ∀ l p, c.JumpsTo l p → (p = r.1 ∨ ∃ i, p ∈ r.2.graph.successors i) →
        l ∉ s.labels ∨ c.Cycles l := by
  intro c settled r
  have h : c.Fresh := ⟨rfl, rfl, hs⟩
  have hget? (i : PointId) :
      r.2.graph.get? i = (c.after.graph.get? i).map (·.redirect settled) :=
    Draft.get?_settle _ _
  refine ⟨⟨rfl, hget?⟩, fun p => h.resolve_eq_self, fun l => (Site.exists_jumpsTo_iff (c := c)).2,
    fun l p hl => ⟨fun q => h.resolve_eq_of_ends hl, fun hend => ?_⟩, fun l p hl hp => ?_⟩
  · obtain ⟨m, hm⟩ := h.exists_jumpsTo_resolve hl hend
    refine ⟨m, ?_⟩
    rw [hget?, h.tidy.get?_slots m _ (h.mem_slots_iff.2 hm)]
    rfl
  · obtain ⟨q, rfl⟩ : ∃ q, p = settled q := by
      rcases hp with rfl | ⟨i, hi⟩
      · exact ⟨_, rfl⟩
      · rw [FlowGraph.successors, hget?] at hi
        rcases hpoint : c.after.graph.get? i with _ | point
        · simp [hpoint] at hi
        · simp only [hpoint, Option.map_some, Point.successors_redirect, List.mem_map] at hi
          obtain ⟨q, -, rfl⟩ := hi
          exact ⟨q, rfl⟩
    by_cases hdefined : l ∈ s.labels
    · exact .inr (h.cycles_of_jumpsTo_resolve hl hdefined)
    · exact .inl hdefined

/-- In `goto a; b: f(); a: goto b` control comes in at the call. -/
theorem analyze_settles_chain :
    let s : Stmt := .block [.jump .goTo (some "a"),
      .labeled "b" (.expr (.call (.name "f") [])), .labeled "a" (.jump .goTo (some "b"))]
    s.labels.Nodup ∧ (s.outermost 0 .exit).Ends "a" 2 ∧ (s.analyze 0 { graph := .exit }).1 = 2 := by
  intro s
  have hs : s.labels.Nodup := by decide
  have h : (s.outermost 0 .exit).Fresh := ⟨rfl, rfl, hs⟩
  have hjump : (s.outermost 0 .exit).JumpsTo "a" (s.outermost 0 .exit).entry :=
    h.lookup_slots_iff.1 (by decide)
  have hends : (s.outermost 0 .exit).Ends "a" 2 := by
    have hforwards : (s.outermost 0 .exit).Forwards "a" "b" :=
      ⟨1, h.lookup_entries_iff.1 (by decide), h.lookup_slots_iff.1 (by decide)⟩
    refine ⟨"b", .single hforwards, h.lookup_entries_iff.1 (by decide), fun l hl => ?_⟩
    have hslots : (s.outermost 0 .exit).after.slots = [("a", 3), ("b", 1)] := by decide
    have hmem := h.mem_slots_iff.2 hl
    rw [hslots] at hmem
    simp at hmem
  have hsettles := analyze_settles s hs .exit 0
  refine ⟨hs, hends, ?_⟩
  rw [hsettles.1.1]
  exact (hsettles.2.2.2.1 "a" _ hjump).1 2 hends

end Stmt

end Staged
