-- SUMMARY: Steps of planning that fail only by going too deep.
import SchemaQuery.Plan.Query
import SchemaQuery.Proofs.Run
import SchemaQuery.Proofs.Scope.Lookup

/-!
# Depth of planning

Planning a resolved query fails for one reason only: its queries are nested more
deeply than the limit. `GoesDown n` says this of a step that goes `n` queries
deeper: it ends well while there is room for `n` more, and otherwise ends with
the error of the limit. The rules of this module follow the steps of planning.
-/

namespace SchemaQuery.Plan

/-- The scopes `s'` bind what `s` binds; attributes may differ. -/
structure SameBindings (s s' : Scopes) : Prop where
  length : s'.all.length = s.all.length
  parent : ∀ i, s'.parentOf i = s.parentOf i
  find : ∀ k i, s'.findIn? k i = s.findIn? k i

/-- The error of going one query deeper than the limit. -/
def limitError (limit : Nat) : PlanError :=
  .recursionLimitExceeded "query lowering" (limit + 1) limit

/-- A state of planning over the bindings of `s` that has not gone too deep. -/
structure Steady (s : Scopes) (limit : Nat) (st : State) : Prop where
  scopes : SameBindings s st.scopes
  maxDepth : st.draft.config.maxDepth = limit
  depth : st.draft.depth ≤ limit

/-- A step that goes `n` queries deeper and gives a result in `Q`. -/
def GoesDown (s : Scopes) (limit n : Nat) (m : Planner α) (Q : α → Prop) : Prop :=
  ∀ st, Steady s limit st →
    (st.draft.depth + n ≤ limit → ∃ a st', m st = .ok a st' ∧ Q a ∧ Steady s limit st' ∧
      st'.draft.depth = st.draft.depth) ∧
    (limit < st.draft.depth + n → ∃ st', m st = .error (limitError limit) st')

variable {s : Scopes} {limit n n' : Nat} {α β : Type}

namespace GoesDown

variable {m : Planner α} {Q : α → Prop}

theorem bind {f : α → Planner β} {R : β → Prop} (hm : GoesDown s limit n m Q)
    (hf : ∀ a, Q a → GoesDown s limit n' (f a) R) :
    GoesDown s limit (max n n') (m >>= f) R := by
  intro st hst
  obtain ⟨hok, herror⟩ := hm st hst
  by_cases hn : st.draft.depth + n ≤ limit
  · obtain ⟨a, st₁, hrun, hQ, hst₁, hdepth⟩ := hok hn
    obtain ⟨hok', herror'⟩ := hf a hQ st₁ hst₁
    rw [run_bind_of_ok hrun]
    refine ⟨fun hle => ?_, fun hlt => herror' (by omega)⟩
    obtain ⟨b, st₂, hrun₂, hR, hst₂, hdepth₂⟩ := hok' (by omega)
    exact ⟨b, st₂, hrun₂, hR, hst₂, hdepth₂.trans hdepth⟩
  · obtain ⟨st₁, hrun⟩ := herror (by omega)
    exact ⟨fun hle => by omega, fun _ => ⟨st₁, run_bind_of_error hrun⟩⟩

/-- A step that never goes deeper and never fails. -/
theorem level (h : ∀ st, Steady s limit st → ∃ a st', m st = .ok a st' ∧ Q a ∧
    SameBindings s st'.scopes ∧ st'.draft.config = st.draft.config ∧
    st'.draft.depth = st.draft.depth) : GoesDown s limit 0 m Q := by
  intro st hst
  have hdepth := hst.depth
  obtain ⟨a, st', hrun, hQ, hscopes, hconfig, hdepth'⟩ := h st hst
  refine ⟨fun _ => ⟨a, st', hrun, hQ, ⟨hscopes, ?_, by omega⟩, hdepth'⟩, fun hlt => by omega⟩
  rw [hconfig]
  exact hst.maxDepth

theorem pure {a : α} (h : Q a) : GoesDown s limit 0 (pure a : Planner α) Q :=
  level fun st hst => ⟨a, st, rfl, h, hst.scopes, rfl, rfl⟩

theorem liftExcept {x : Except PlanError α} {a : α} (hx : x = .ok a) :
    GoesDown s limit 0 (liftExcept x) (· = a) := by
  subst hx
  exact .pure rfl

theorem get : GoesDown s limit 0 (get : Planner State) (Steady s limit) :=
  level fun st hst => ⟨st, st, rfl, hst, hst.scopes, rfl, rfl⟩

/-- A step followed by one that stays at its level. -/
theorem seq {f : α → Planner β} {R : β → Prop} (hm : GoesDown s limit n m Q)
    (hf : ∀ a, Q a → GoesDown s limit 0 (f a) R) : GoesDown s limit n (m >>= f) R := by
  have h := hm.bind hf
  rwa [Nat.max_zero] at h

/-- A step that stays at its level, followed by another. -/
theorem after {f : α → Planner β} {R : β → Prop} (hm : GoesDown s limit 0 m Q)
    (hf : ∀ a, Q a → GoesDown s limit n (f a) R) : GoesDown s limit n (m >>= f) R := by
  have h := hm.bind hf
  rwa [Nat.zero_max] at h

end GoesDown

/-! ## Steps on the draft -/

theorem emit_level (node : Node) : GoesDown s limit 0 (emit node) fun _ => True :=
  .level fun st hst =>
    ⟨_, { st with draft := st.draft.emit node }, rfl, trivial, hst.scopes, rfl, rfl⟩

theorem nextTable_level (role : String) : GoesDown s limit 0 (nextTable role) fun _ => True :=
  .level fun st hst =>
    ⟨_, { st with draft := st.draft.advance }, rfl, trivial, hst.scopes, rfl, rfl⟩

theorem declare_level (role : String) (columns : List Column) (forGrouping : Bool) :
    GoesDown s limit 0 (declare role columns forGrouping) fun _ => True :=
  (nextTable_level role).after fun _ _ => (emit_level _).after fun _ _ => .pure trivial

theorem destination_level (role : String) (columns : List Column) (destination : Destination) :
    GoesDown s limit 0 (destination.table role columns) fun _ => True := by
  cases destination with
  | fresh => exact declare_level role columns false
  | existing table => exact .pure trivial

/-! ## Queries -/

theorem SameBindings.ordered {s s' : Scopes} (h : SameBindings s s') (hs : s.Ordered) :
    s'.Ordered := by
  intro i p hp
  exact hs i p (h.parent i ▸ hp)

@[simp] theorem Draft.enter_depth (d : Draft) : d.enter.depth = d.depth + 1 := rfl

@[simp] theorem Draft.exit_depth (d : Draft) : d.exit.depth = d.depth - 1 := rfl

/-- Going one query deeper. -/
theorem enterQuery_run (context : String) (st : State) :
    enterQuery context st =
      if st.draft.config.maxDepth < st.draft.depth + 1 then
        .error (.recursionLimitExceeded context (st.draft.depth + 1) st.draft.config.maxDepth)
          { st with draft := st.draft.enter }
      else .ok () { st with draft := st.draft.enter } := by
  have hget : (get : Planner State) st = .ok st st := rfl
  have hset : (set { st with draft := st.draft.enter } : Planner Unit) st =
    .ok () { st with draft := st.draft.enter } := rfl
  rw [enterQuery, run_bind_of_ok hget, run_bind_of_ok hset]
  by_cases h : st.draft.config.maxDepth < st.draft.depth + 1
  · have herror : st.draft.enter.depthError? context =
        some (.recursionLimitExceeded context (st.draft.depth + 1) st.draft.config.maxDepth) :=
      if_pos h
    rw [if_pos h, herror]
    rfl
  · have hnone : st.draft.enter.depthError? context = none := if_neg h
    rw [if_neg h, hnone]
    rfl

/-- A step inside a query goes one query deeper than on its own. -/
theorem GoesDown.nest {m : Planner α} {k : α → Planner β} {Q : α → Prop} {R : β → Prop}
    (hm : GoesDown s limit n m Q) (hk : ∀ a, Q a → GoesDown s limit 0 (k a) R) :
    GoesDown s limit (1 + n)
      (enterQuery "query lowering" >>= fun _ => m >>= fun a => exitQuery >>= fun _ => k a) R := by
  intro st hst
  have hdepth := hst.depth
  have henter := enterQuery_run "query lowering" st
  rw [hst.maxDepth] at henter
  by_cases hroom : limit < st.draft.depth + 1
  · -- the limit is reached, so this query is one too deep
    rw [if_pos hroom, show st.draft.depth = limit by omega] at henter
    exact ⟨fun hle => by omega, fun _ => ⟨_, run_bind_of_error henter⟩⟩
  · rw [if_neg hroom] at henter
    rw [run_bind_of_ok henter]
    obtain ⟨hok, herror⟩ := hm { st with draft := st.draft.enter }
      ⟨hst.scopes, hst.maxDepth, by simp only [Draft.enter_depth]; omega⟩
    simp only [Draft.enter_depth] at hok herror
    constructor
    · intro hle
      obtain ⟨a, st₁, hrun, hQ, hst₁, hdepth₁⟩ := hok (by omega)
      rw [run_bind_of_ok hrun]
      have hexit : Steady s limit { st₁ with draft := st₁.draft.exit } := by
        have := hst₁.depth
        exact ⟨hst₁.scopes, hst₁.maxDepth, by simp only [Draft.exit_depth]; omega⟩
      change ∃ b st', k a { st₁ with draft := st₁.draft.exit } = .ok b st' ∧ _
      obtain ⟨hok', -⟩ := hk a hQ _ hexit
      obtain ⟨b, st₂, hrun₂, hR, hst₂, hdepth₂⟩ := hok' (by simp only [Draft.exit_depth]; omega)
      refine ⟨b, st₂, hrun₂, hR, hst₂, ?_⟩
      rw [hdepth₂]
      simp only [Draft.exit_depth]
      omega
    · intro hlt
      obtain ⟨st₁, hrun⟩ := herror (by omega)
      exact ⟨st₁, run_bind_of_error hrun⟩

theorem setAttribute_sameBindings {scopes scopes' : Scopes} {scope : Nat} {key value : String}
    (h : scopes.setAttribute scope key value = .ok scopes') : SameBindings scopes scopes' := by
  rw [Scopes.setAttribute_eq] at h
  obtain ⟨_, -, h⟩ := except_bind_ok.1 h
  obtain rfl := except_pure_ok.1 h
  refine ⟨by simp, fun i => ?_, fun k i => ?_⟩
  · simp only [Scopes.parentOf, List.getElem?_modify]
    split <;> cases scopes.all[i]? <;> rfl
  · simp only [Scopes.findIn?, List.getElem?_modify]
    split <;> cases scopes.all[i]? <;> rfl

theorem SameBindings.trans {s s' s'' : Scopes} (h : SameBindings s s') (h' : SameBindings s' s'') :
    SameBindings s s'' :=
  ⟨h'.length.trans h.length, fun i => (h'.parent i).trans (h.parent i),
    fun k i => (h'.find k i).trans (h.find k i)⟩

theorem setTableAttribute_level {scope : Nat} (hscope : scope < s.all.length) (table : String) :
    GoesDown s limit 0 (setTableAttribute scope table) fun _ => True := by
  refine .level fun st hst => ?_
  have hlt : scope < st.scopes.all.length := hst.scopes.length ▸ hscope
  have hset : ∃ scopes, st.scopes.setAttribute scope tableAttribute table = .ok scopes := by
    simp only [Scopes.setAttribute_eq, Scopes.scope_eq_ok hlt]
    exact ⟨_, rfl⟩
  obtain ⟨scopes, hset⟩ := hset
  refine ⟨(), ⟨scopes, st.draft⟩, ?_, trivial, ?_, rfl, rfl⟩
  · change (liftExcept (ofLookup (st.scopes.setAttribute scope tableAttribute table)) >>= fun scopes =>
      set (⟨scopes, st.draft⟩ : State)) st = _
    rw [hset]
    rfl
  · exact hst.scopes.trans (setAttribute_sameBindings hset)

end SchemaQuery.Plan
