-- SUMMARY: What every sequence of operations leaves of the scopes, and when all walks end.
import SchemaQuery.Proofs.Scope.Changes
import SchemaQuery.Scope.Operation

/-!
# Sequences of operations

An operation opens a scope, moves the cursor to the scope around it, or changes what
one scope holds. It does nothing else (`Effect`), and nothing at all where it fails
(`run_checksFirst`). What holds of the scopes after every sequence of operations is proved
of each kind of effect.

A scope may be created in any parent, also in one that does not exist yet. If every
parent exists, the scopes are in order (`operations_wellFormed`). Otherwise a scope
can take the number at which the walk from its parent stops. The walks through it then
go round in a circle, and nothing else makes a walk endless (`operations_walks_end`).
-/

namespace SchemaQuery

/-! ## Effects -/

theorem Scopes.getElem?_of_append {s s' : Scopes} {i : Nat} {sc last : Scope}
    (hall : s'.all = s.all ++ [last])
    (h : s'.all[i]? = some sc) : s.all[i]? = some sc ∨ i = s.all.length ∧ sc = last := by
  rw [hall, List.getElem?_append] at h
  split at h
  · exact .inl h
  · obtain ⟨hi, rfl⟩ := List.getElem?_eq_some_iff.1 h
    simp only [List.length_singleton] at hi
    exact .inr ⟨by omega, by simp⟩

namespace ScopeOperation

variable {op : ScopeOperation} {s s' : Scopes}

/-- The operation opens a scope. -/
def opens : ScopeOperation → Bool
  | .enter .. | .create .. => true
  | _ => false

/-- The parent of the scope that an operation opens. -/
def parent? (op : ScopeOperation) (s : Scopes) : Option Nat :=
  match op with
  | .enter .. => s.current
  | .create _ _ parent => parent
  | _ => none

/-- What an operation that succeeds does to the scopes. -/
inductive Effect (s : Scopes) : ScopeOperation → Scopes → Prop where
  | opened {op : ScopeOperation} {s' : Scopes} {kind : ScopeKind} {name : String}
      (hop : op.opens = true)
      (hall : s'.all = s.all ++ [⟨s.all.length, op.parent? s, kind, name, [], []⟩])
      (hcurrent : s'.current = s.current ∨
        s'.current = some s.all.length ∧ op.parent? s = s.current) : Effect s op s'
  | left {c : Nat} (hcurrent : s.current = some c) (hc : c < s.all.length) :
      Effect s .leave { s with current := s.parentOf c }
  /-- The bindings of a scope change, and no alias is bound twice for that. -/
  | bound {op : ScopeOperation} {i : Nat} {f : List (String × Symbol) → List (String × Symbol)}
      (hop : op.opens = false)
      (hdistinct : ∀ sc, s.all[i]? = some sc → sc.aliases.Nodup →
        ((f sc.symbols).map (·.1)).Nodup) :
      Effect s op (s.mapSymbols i f)
  | noted (id : Nat) (key value : String) :
      Effect s (.setAttribute id key value) { s with all := s.all.modify id fun sc =>
        { sc with attributes := sc.attributes.insert key value } }

/-! ### Runs -/

/-- The checks of an operation come before its writes. -/
theorem run_checksFirst (op : ScopeOperation) : ScopeStep.ChecksFirst op.run := by
  have hanswer {α : Type} {step : ScopeStep α} {answer : α → Option Nat}
      (h : ScopeStep.ChecksFirst step) :
      ScopeStep.ChecksFirst (do return answer (← step)) :=
    h.bind fun _ => ScopeStep.succeeds_pure _
  cases op with
  | enter kind name => exact hanswer (ScopeStep.enter_succeeds kind name).checksFirst
  | create kind name parent =>
    exact hanswer (ScopeStep.create_succeeds kind name parent).checksFirst
  | leave => exact ScopeStep.leave_checksFirst
  | add id k symbol => exact hanswer (ScopeStep.add_checksFirst id k symbol)
  | update k id symbol => exact hanswer (ScopeStep.update_checksFirst k id symbol)
  | modifyTable k id f => exact hanswer (ScopeStep.modify_checksFirst .table k id f)
  | modifyRefresh k id f => exact hanswer (ScopeStep.modify_checksFirst .refresh k id f)
  | move id source target => exact hanswer (ScopeStep.move_checksFirst id source target)
  | setAttribute id key value => exact hanswer (ScopeStep.setAttribute_checksFirst id key value)

theorem effect_of_run {a : Option Nat} (h : op.run s = .ok a s') : Effect s op s' := by
  have hresult {step : ScopeStep Unit} (h : (do step; return none) s = .ok a s') :
      step.result s = .ok s' := by
    obtain ⟨x, t, hrun, hpure⟩ := run_bind_ok.1 h
    obtain ⟨-, rfl⟩ := run_pure_ok.1 hpure
    exact ScopeStep.result_eq_ok_iff.2 ⟨x, hrun⟩
  have hreplace {op : ScopeOperation} {k : String} {id : Nat} {symbol : Symbol}
      (hop : op.opens = false) (h : s.update k id symbol = .ok s') : Effect s op s' := by
    obtain ⟨ids, d, -, -, rfl⟩ := Scopes.update_eq_ok_iff.1 h
    exact .bound hop fun sc _ hnodup => Scope.replaceEntry_nodup hnodup (.inl rfl)
  have hmodify {op : ScopeOperation} {α : Type} {view : SymbolView α} {k : String} {id : Nat}
      {f : α → α} (hop : op.opens = false) (h : s.modify view k id f = .ok s') :
      Effect s op s' := by
    obtain ⟨x, -, hupdate⟩ := except_bind_ok.1 (Scopes.modify_eq s view k id f ▸ h)
    exact hreplace hop hupdate
  cases op with
  | enter kind name =>
    cases h
    exact .opened rfl rfl (.inr ⟨rfl, rfl⟩)
  | create kind name parent =>
    cases h
    exact .opened rfl rfl (.inl rfl)
  | leave =>
    obtain ⟨c, hcurrent, hc, rfl⟩ :=
      Scopes.leave_eq_ok_iff.1 (ScopeStep.result_eq_ok_iff.2 ⟨a, h⟩)
    exact .left hcurrent hc
  | add id k symbol =>
    obtain ⟨ids, hpath, hfree, rfl⟩ := Scopes.add_eq_ok_iff.1 (hresult h)
    refine .bound rfl fun sc hsc hnodup => ?_
    obtain ⟨rest, rfl⟩ := hpath.head
    have hk := Scopes.not_mem_aliases hsc (hfree id (List.mem_cons_self ..))
    rw [List.map_append]
    exact List.nodup_append_comm.1 (List.nodup_cons.2 ⟨hk, hnodup⟩)
  | update k id symbol => exact hreplace rfl (hresult h)
  | modifyTable k id f => exact hmodify rfl (hresult h)
  | modifyRefresh k id f => exact hmodify rfl (hresult h)
  | move id source target =>
    obtain ⟨ids, d, symbol, hpath, hfree, hnearest, -, rfl⟩ :=
      Scopes.move_eq_ok_iff.1 (hresult h)
    refine .bound rfl fun sc hsc hnodup => Scope.replaceEntry_nodup hnodup (.inr ?_)
    exact Scopes.not_mem_aliases hsc (hfree d (hpath.mem_of_nearest hnearest))
  | setAttribute id key value =>
    have hset : s.setAttribute id key value = .ok s' := hresult h
    rw [Scopes.setAttribute_eq] at hset
    obtain ⟨sc, -, hpure⟩ := except_bind_ok.1 hset
    cases hpure
    exact .noted id key value

/-- An operation fails and does nothing, or it has one of the effects. -/
theorem after_cases (op : ScopeOperation) (s : Scopes) :
    op.after s = s ∨ Effect s op (op.after s) := by
  unfold after
  cases h : op.run s with
  | ok a s' => exact .inr (effect_of_run h)
  | error e s' => exact .inl (op.run_checksFirst s e s' h)

namespace Effect

theorem parents (h : Effect s op s') (hop : op.opens = false) :
    s'.all.length = s.all.length ∧ ∀ i, s'.parentOf i = s.parentOf i := by
  cases h with
  | opened hopens _ _ => simp [hop] at hopens
  | left _ _ => exact ⟨rfl, fun _ => rfl⟩
  | bound _ _ => exact ⟨Scopes.mapSymbols_length .., Scopes.mapSymbols_parentOf s _ _⟩
  | noted id key value =>
    refine ⟨by simp, fun i => ?_⟩
    simp only [Scopes.parentOf, List.getElem?_modify]
    cases s.all[i]? with
    | none => rfl
    | some sc => by_cases hi : id = i <;> simp [hi]

/-- A path to a root stays. -/
theorem path (h : Effect s op s') {i : Nat} {ids : List Nat} (hpath : s.Path i ids none) :
    s'.Path i ids none := by
  cases hop : op.opens with
  | false => exact hpath.congr (h.parents hop).1 (h.parents hop).2
  | true =>
    cases h with
    | opened _ hall _ => exact hpath.append hall (by simp)
    | bound hopens _ => simp [hop] at hopens
    | left _ _ | noted _ _ _ => cases hop

end Effect

end ScopeOperation

namespace ScopeOperation

/-- An operation that opens a scope succeeds. -/
theorem after_opened (op : ScopeOperation) (s : Scopes) (hop : op.opens = true) :
    ∃ last : Scope, (op.after s).all = s.all ++ [last] ∧ last.parent = op.parent? s := by
  cases op with
  | enter | create => exact ⟨_, rfl, rfl⟩
  | _ => cases hop

theorem after_parents (op : ScopeOperation) (s : Scopes) (hop : op.opens = false) :
    (op.after s).all.length = s.all.length ∧ ∀ i, (op.after s).parentOf i = s.parentOf i := by
  rcases op.after_cases s with h | h
  · rw [h]
    exact ⟨rfl, fun _ => rfl⟩
  · exact h.parents hop

end ScopeOperation

/-! ## Invariants -/

/-- What every operation keeps: scopes are numbered in the order in which they were opened, none
    binds an alias twice, and the walk from the cursor comes to a root. -/
structure Scopes.Sound (s : Scopes) : Prop where
  numbered : ∀ (i : Nat) (sc : Scope), s.all[i]? = some sc → sc.id = i
  distinct : ∀ (i : Nat) (sc : Scope), s.all[i]? = some sc → sc.aliases.Nodup
  cursor : ∀ c, s.current = some c → ∃ ids, s.Path c ids none

namespace ScopeOperation

variable {op : ScopeOperation} {s s' : Scopes}

/-- A scope is new, or it has its number and its aliases from before. -/
theorem Effect.scopes (h : Effect s op s') (hs : s.Sound) :
    ∀ (i : Nat) (sc : Scope), s'.all[i]? = some sc → sc.id = i ∧ sc.aliases.Nodup := by
  intro i sc hsc
  have hold (old : Scope) (hold : s.all[i]? = some old) : old.id = i ∧ old.aliases.Nodup :=
    ⟨hs.numbered i old hold, hs.distinct i old hold⟩
  cases h with
  | opened _ hall _ =>
    rcases Scopes.getElem?_of_append hall hsc with hsc | ⟨rfl, rfl⟩
    · exact hold sc hsc
    · exact ⟨rfl, List.nodup_nil⟩
  | left _ _ => exact hold sc hsc
  | @bound op d f _ hdistinct =>
    simp only [Scopes.mapSymbols, List.getElem?_modify, Option.map_eq_map,
      Option.map_eq_some_iff] at hsc
    obtain ⟨old, hget, rfl⟩ := hsc
    split
    · rename_i hd
      subst hd
      exact ⟨(hold old hget).1, hdistinct old hget (hold old hget).2⟩
    · exact hold old hget
  | noted id key value =>
    simp only [List.getElem?_modify, Option.map_eq_map, Option.map_eq_some_iff] at hsc
    obtain ⟨old, hget, rfl⟩ := hsc
    split
    · exact hold old hget
    · exact hold old hget

theorem Effect.cursor (h : Effect s op s') (hs : s.Sound) :
    ∀ c, s'.current = some c → ∃ ids, s'.Path c ids none := by
  intro c hc
  have hkept (hold : s.current = some c) : ∃ ids, s'.Path c ids none := by
    obtain ⟨ids, hpath⟩ := hs.cursor c hold
    exact ⟨ids, h.path hpath⟩
  cases h with
  | opened _ hall hcurrent =>
    rcases hcurrent with hcurrent | ⟨hcurrent, hparent⟩
    · exact hkept (hcurrent ▸ hc)
    · obtain rfl : s.all.length = c := Option.some.inj (hcurrent.symm.trans hc)
      exact Scopes.path_of_append hall fun p hp => hs.cursor p (hparent ▸ hp)
  | @left old hcurrent _ =>
    obtain ⟨ids, hpath⟩ := hs.cursor old hcurrent
    obtain ⟨rest, -, hrest⟩ := hpath.parent hc
    exact ⟨rest, hrest.congr rfl fun _ => rfl⟩
  | bound _ _ | noted _ _ _ => exact hkept hc

end ScopeOperation

namespace Scopes

variable {s : Scopes}

theorem Sound.empty : Sound .empty where
  numbered := by simp [Scopes.empty]
  distinct := by simp [Scopes.empty]
  cursor := by simp [Scopes.empty]

theorem Sound.after (hs : s.Sound) (op : ScopeOperation) : (op.after s).Sound := by
  rcases op.after_cases s with h | h
  · rwa [h]
  · exact ⟨fun i sc hsc => (h.scopes hs i sc hsc).1, fun i sc hsc => (h.scopes hs i sc hsc).2,
      h.cursor hs⟩

theorem Sound.afterAll (hs : s.Sound) (ops : List ScopeOperation) : (s.afterAll ops).Sound := by
  induction ops generalizing s with
  | nil => exact hs
  | cons op ops ih => exact ih (hs.after op)

end Scopes

/-! ## Sequences -/

/-- Every operation of a sequence meets a condition on the scopes that it is performed on. -/
def Each (P : ScopeOperation → Scopes → Prop) : List ScopeOperation → Scopes → Prop
  | [], _ => True
  | op :: ops, s => P op s ∧ Each P ops (op.after s)

instance Each.instDecidable {P : ScopeOperation → Scopes → Prop} [∀ op s, Decidable (P op s)] :
    ∀ ops s, Decidable (Each P ops s)
  | [], _ => .isTrue trivial
  | op :: ops, s =>
    have := Each.instDecidable (P := P) ops (op.after s)
    inferInstanceAs (Decidable (P op s ∧ Each P ops (op.after s)))

/-- A scope that the operation creates gets no parent or one that exists. -/
def ScopeOperation.hasParent (op : ScopeOperation) (s : Scopes) : Bool :=
  match op with
  | .create _ _ (some p) => p < s.all.length
  | _ => true

/-- The operation creates a scope in a parent, and the walk from the parent stops at the number that
    the scope takes. -/
def ScopeOperation.Closes (op : ScopeOperation) (s : Scopes) : Prop :=
  match op with
  | .create _ _ (some p) => ∃ ids, s.Path p ids (some s.all.length)
  | _ => False

/-- What holds of scopes whose parents exist. -/
structure Scopes.WellFormed (s : Scopes) : Prop where
  numbered : ∀ (i : Nat) (sc : Scope), s.all[i]? = some sc → sc.id = i
  parent_lt : ∀ sc ∈ s.all, ∀ p, sc.parent = some p → p < sc.id
  cursor : ∀ c, s.current = some c → ∃ sc ∈ s.all, sc.id = c
  distinct : ∀ sc ∈ s.all, sc.aliases.Nodup
  /-- The chain of a scope follows the parents to a root, over smaller and smaller numbers. -/
  chain : ∀ sc ∈ s.all, ∃ rest, s.chain sc.id = .ok (sc.id :: rest) ∧
    s.Path sc.id (sc.id :: rest) none ∧ (sc.id :: rest).Pairwise (· > ·)

namespace Scopes

variable {s : Scopes}

theorem Ordered.after (hordered : s.Ordered) (hs : s.Sound) {op : ScopeOperation}
    (hop : op.hasParent s = true) : (op.after s).Ordered := by
  intro i p hp
  cases hopens : op.opens with
  | false => exact hordered i p ((op.after_parents s hopens).2 i ▸ hp)
  | true =>
    obtain ⟨last, hall, hlast⟩ := op.after_opened s hopens
    rw [parentOf_of_append hall, hlast] at hp
    split at hp
    · rename_i hi
      subst hi
      cases op with
      | enter kind name =>
        obtain ⟨ids, hpath⟩ := hs.cursor p hp
        exact hpath.start_lt
      | create kind name parent =>
        obtain rfl : parent = some p := hp
        exact of_decide_eq_true hop
      | _ => cases hopens
    · exact hordered i p hp

theorem Ordered.afterAll (hordered : s.Ordered) (hs : s.Sound) {ops : List ScopeOperation}
    (hops : Each (·.hasParent · = true) ops s) : (s.afterAll ops).Ordered := by
  induction ops generalizing s with
  | nil => exact hordered
  | cons op ops ih => exact ih (hordered.after hs hops.1) (hs.after op) hops.2

theorem Sound.wellFormed (hs : s.Sound) (hordered : s.Ordered) : s.WellFormed where
  numbered := hs.numbered
  parent_lt := by
    intro sc hsc p hp
    obtain ⟨i, hi⟩ := List.mem_iff_getElem?.1 hsc
    rw [hs.numbered i sc hi]
    exact hordered i p (by rw [parentOf, hi]; exact hp)
  cursor := by
    intro c hc
    obtain ⟨ids, hpath⟩ := hs.cursor c hc
    have hget := List.getElem?_eq_getElem hpath.start_lt
    exact ⟨_, List.mem_of_getElem? hget, hs.numbered c _ hget⟩
  distinct := by
    intro sc hsc
    obtain ⟨i, hi⟩ := List.mem_iff_getElem?.1 hsc
    exact hs.distinct i sc hi
  chain := by
    intro sc hsc
    obtain ⟨i, hi⟩ := List.mem_iff_getElem?.1 hsc
    rw [hs.numbered i sc hi]
    obtain ⟨rest, hpath, hpair⟩ := hordered.path (List.getElem?_eq_some_iff.1 hi).1
    exact ⟨rest, chain_of_path hpath, hpath, hpair⟩

/-- The scopes are well formed after every sequence of operations that creates no scope in a parent
    that does not exist, and an operation that fails leaves them as they were. -/
theorem operations_wellFormed (ops : List ScopeOperation)
    (hops : Each (·.hasParent · = true) ops .empty) :
    (Scopes.empty.afterAll ops).WellFormed ∧
      ∀ (op : ScopeOperation) (e : ResolveError) (s' : Scopes),
        op.run (Scopes.empty.afterAll ops) = .error e s' → s' = Scopes.empty.afterAll ops := by
  have hordered : Scopes.empty.Ordered := fun i p hp => by simp [parentOf, Scopes.empty] at hp
  exact ⟨(Sound.empty.afterAll ops).wellFormed (hordered.afterAll Sound.empty hops),
    fun op e s' => op.run_checksFirst _ e s'⟩

/-- A block with a nested one: the second binding of the alias fails, and so does the last step
    out. -/
theorem operations_wellFormed_nestedBlock :
    let t : TableSymbol := .plain "a" .subquery [] true .object
    let ops : List ScopeOperation := [.enter .query "Query", .add 0 "a" (.table t),
      .enter .subquery "s", .add 1 "a" (.table t), .create .cte "c" (some 0), .move 1 "a" "b",
      .setAttribute 2 "rows" "b", .leave, .leave, .leave]
    Each (·.hasParent · = true) ops .empty ∧ (Scopes.empty.afterAll ops).WellFormed ∧
      ((Scopes.empty.afterAll ops).all.map (·.parent) = [none, some 0, some 0]) := by
  refine ⟨by decide +kernel, (operations_wellFormed _ (by decide +kernel)).1, by decide +kernel⟩

/-! ## Circles -/

/-- An operation lets some walk go round in a circle exactly when it closes one. -/
theorem not_circles_after (hs : s.Sound) (op : ScopeOperation) :
    (∀ i, ¬ (op.after s).Circles i) ↔ (∀ i, ¬ s.Circles i) ∧ ¬ op.Closes s := by
  cases hopens : op.opens with
  | false =>
    have hparent := (op.after_parents s hopens).2
    have hcloses : ¬ op.Closes s := by
      cases op with
      | enter | create => cases hopens
      | _ => exact id
    rw [and_iff_left hcloses]
    exact forall_congr' fun i => not_congr
      ⟨fun h => h.mono fun i _ => (hparent i).symm, fun h => h.mono fun i _ => hparent i⟩
  | true =>
    obtain ⟨last, hall, hlast⟩ := op.after_opened s hopens
    rw [append_not_circles_iff hall, hlast]
    refine and_congr_right fun _ => ?_
    cases op with
    | enter kind name =>
      -- the walk from the cursor comes to a root, so it does not stop at a number
      refine iff_of_true (fun p ids hp hpath => ?_) id
      obtain ⟨ids', hroot⟩ := hs.cursor p hp
      cases (hpath.unique hroot).2
    | create kind name parent =>
      cases parent with
      | none => simp [ScopeOperation.Closes, ScopeOperation.parent?]
      | some p =>
        change _ ↔ ¬ ∃ ids, s.Path p ids (some s.all.length)
        rw [not_exists]
        exact ⟨fun h ids => h p ids rfl, fun h _ ids hp => Option.some.inj hp ▸ h ids⟩
    | _ => cases hopens

theorem not_circles_afterAll (hs : s.Sound) (ops : List ScopeOperation) :
    (∀ i, ¬ (s.afterAll ops).Circles i) ↔
      (∀ i, ¬ s.Circles i) ∧ Each (fun op s => ¬ op.Closes s) ops s := by
  induction ops generalizing s with
  | nil => exact (and_iff_left trivial).symm
  | cons op ops ih =>
    change (∀ i, ¬ ((op.after s).afterAll ops).Circles i) ↔ _
    rw [ih (hs.after op), not_circles_after hs op, and_assoc]
    rfl

/-- After every sequence of operations the walk from a scope ends unless it goes round in a circle,
    and a walk that ends passes no scope twice. All walks end exactly when no operation has closed
    a circle. -/
theorem operations_walks_end (ops : List ScopeOperation) :
    let s := Scopes.empty.afterAll ops
    (∀ id, (s.walkOn id = none ↔ s.Circles id) ∧
      (s.walkOn id = none ∨ ∃ ids stop, s.Path id ids stop ∧ ids.Nodup ∧
        ids.length ≤ s.all.length ∧ s.walkOn id = some (answer ids stop) ∧
        s.chain id = answer ids stop)) ∧
    ((∀ id, s.walkOn id ≠ none) ↔ Each (fun op s => ¬ op.Closes s) ops .empty) := by
  intro s
  refine ⟨fun id => ⟨walkOn_eq_none_iff, ?_⟩, ?_⟩
  · by_cases hcircle : s.Circles id
    · exact .inl (walkOn_eq_none_iff.2 hcircle)
    · obtain ⟨ids, stop, hpath⟩ := not_circles_iff.1 hcircle
      exact .inr ⟨ids, stop, hpath, hpath.nodup, hpath.length_le, walkOn_of_path hpath,
        chain_of_path hpath⟩
  · have hempty (i : Nat) : ¬ Scopes.empty.Circles i :=
      not_circles_iff.2 ⟨[], some i, .unknown (Nat.zero_le i)⟩
    have hops := (not_circles_afterAll Sound.empty ops).trans (and_iff_right hempty)
    exact (forall_congr' fun id => not_congr walkOn_eq_none_iff).trans hops

/-- A scope that is created in itself: the walk from it never ends. -/
theorem operations_walks_end_ownParent :
    (Scopes.empty.afterAll [.create .query "Query" (some 0)]).walkOn 0 = none := by
  have hparent : (Scopes.empty.afterAll [.create .query "Query" (some 0)]).parentOf 0 =
      some 0 := rfl
  exact ((operations_walks_end [.create .query "Query" (some 0)]).1 0).1.2
    ⟨0, .refl, .single hparent⟩

end Scopes

end SchemaQuery
