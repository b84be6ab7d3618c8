-- SUMMARY: The nearest scope that binds a name, and when work in the scopes leaves it the nearest one.
import SchemaQuery.Proofs.Scope.Growth

/-!
# Nearest scopes

A lookup takes the symbol of the nearest scope that binds the name. `Nearest` says
which scope that is by the parents of scopes alone. A name is bound only where no
scope in sight binds it, so no binding is hidden by a later one: the nearest scope
stays the nearest (`Nearest.add`).
-/

namespace SchemaQuery.Scopes

/-- The scope `d` is the nearest one from `i` outward that binds the name. -/
inductive Nearest (s : Scopes) (k : String) : Nat → Nat → Prop where
  | here {i : Nat} {symbol : Symbol} (hfind : s.findIn? k i = some symbol) : Nearest s k i i
  | outer {i j d : Nat} (hfree : s.findIn? k i = none) (hparent : s.parentOf i = some j)
      (h : Nearest s k j d) : Nearest s k i d

/-- Some scope from `i` outward binds the name. -/
def Sees (s : Scopes) (k : String) (i : Nat) : Prop := ∃ d, s.Nearest k i d

variable {s s' : Scopes} {k : String} {i j d : Nat}

namespace Nearest

theorem unique {d' : Nat} (h : s.Nearest k i d) (h' : s.Nearest k i d') : d = d' := by
  induction h with
  | here hfind =>
    cases h' with
    | here _ => rfl
    | outer hfree _ _ => simp [hfind] at hfree
  | outer hfree hparent _ ih =>
    cases h' with
    | here hfind => simp [hfree] at hfind
    | outer _ hparent' h' =>
      cases hparent.symm.trans hparent'
      exact ih h'

theorem bound (h : s.Nearest k i d) : ∃ symbol, s.findIn? k d = some symbol := by
  induction h with
  | here hfind => exact ⟨_, hfind⟩
  | outer _ _ _ ih => exact ih

theorem lt_length (h : s.Nearest k i d) : i < s.all.length := by
  cases h with
  | here hfind => exact lt_length_of_findIn? hfind
  | outer _ hparent _ =>
    by_contra hlt
    simp [parentOf, List.getElem?_eq_none (Nat.le_of_not_lt hlt)] at hparent

theorem congr (hall : s'.all = s.all) (h : s.Nearest k i d) : s'.Nearest k i d := by
  induction h with
  | here hfind => exact .here (by simpa only [findIn?, hall] using hfind)
  | outer hfree hparent _ ih =>
    exact .outer (by simpa only [findIn?, hall] using hfree)
      (by simpa only [parentOf, hall] using hparent) ih

/-- A scope that does not bind the name sees what the scope around it sees. -/
theorem of_child (h : s.Nearest k i d) (hfree : s.findIn? k i = none)
    (hparent : s.parentOf i = some j) : s.Nearest k j d := by
  cases h with
  | here hfind => simp [hfree] at hfind
  | outer _ hparent' h =>
    cases hparent.symm.trans hparent'
    exact h

end Nearest

/-! ## Lookups -/

theorem bindingScope?_here {symbol : Symbol} {ids : List Nat} (hfind : s.findIn? k i = some symbol) :
    s.bindingScope? k (i :: ids) = some d ↔ s.Nearest k i d := by
  have hhere : s.Nearest k i i := .here hfind
  simp only [bindingScope?, List.find?_cons, hfind, Option.isSome_some, Option.some.injEq]
  exact ⟨fun h => h ▸ hhere, hhere.unique⟩

/-- The first scope on a path that binds a name is the nearest one. -/
theorem Path.nearest_iff {ids : List Nat} {stop : Option Nat} (h : s.Path i ids stop) :
    s.bindingScope? k ids = some d ↔ s.Nearest k i d := by
  induction h with
  | @unknown i hi =>
    refine ⟨fun h => by simp [bindingScope?] at h, fun h => ?_⟩
    exact absurd h.lt_length (Nat.not_lt.2 hi)
  | @root i hi hroot =>
    cases hfind : s.findIn? k i with
    | none =>
      refine ⟨fun h => by simp [bindingScope?, hfind] at h, fun h => ?_⟩
      cases h with
      | here h => simp [hfind] at h
      | outer _ h _ => simp [hroot] at h
    | some symbol => exact bindingScope?_here hfind
  | @outer i p ids stop hparent _ ih =>
    cases hfind : s.findIn? k i with
    | none =>
      simp only [bindingScope?, List.find?_cons, hfind, Option.isSome_none]
      exact ih.trans ⟨.outer hfind hparent, fun h => h.of_child hfind hparent⟩
    | some symbol => exact bindingScope?_here hfind

/-- The first scope of a chain that binds a name is the nearest one. -/
theorem chain_nearest (hs : s.Ordered) {id : Nat} (hid : id < s.all.length) (k : String) :
    ∃ ids, s.chain id = .ok ids ∧ ∀ d, s.bindingScope? k ids = some d ↔ s.Nearest k id d := by
  obtain ⟨rest, hpath, -⟩ := hs.path hid
  exact ⟨id :: rest, chain_of_path hpath, fun _ => hpath.nearest_iff⟩

/-- A lookup gives the symbol of the nearest scope, or none is in sight. -/
theorem lookup_nearest (hs : s.Ordered) {id : Nat} (hid : id < s.all.length) {k : String}
    {found : Option Symbol} (h : s.lookup k id = .ok found) :
    (found = none ∧ ¬ s.Sees k id) ∨
      ∃ d symbol, s.Nearest k id d ∧ s.findIn? k d = some symbol ∧ found = some symbol := by
  obtain ⟨ids, hchain, hids⟩ := chain_nearest hs hid k
  simp only [lookup, hchain, bind, Except.bind, pure, Except.pure, findSome?_findIn?,
    Except.ok.injEq] at h
  cases hscope : s.bindingScope? k ids with
  | none =>
    refine .inl ⟨by simpa [hscope] using h.symm, ?_⟩
    rintro ⟨d, hd⟩
    simp [(hids d).2 hd] at hscope
  | some d =>
    have hnearest := (hids d).1 hscope
    obtain ⟨symbol, hfind⟩ := hnearest.bound
    exact .inr ⟨d, symbol, hnearest, hfind, by simpa [hscope, hfind] using h.symm⟩

/-- A name is bound only where it is not seen. -/
theorem add_unseen (hs : s.Ordered) {id : Nat} (hid : id < s.all.length) {symbol : Symbol}
    (h : s.add id k symbol = .ok s') : ¬ s.Sees k id := by
  rw [add_eq, except_bind_ok] at h
  obtain ⟨found, hlookup, h⟩ := h
  rcases lookup_nearest hs hid hlookup with ⟨-, hunseen⟩ | ⟨d, old, -, -, rfl⟩
  · exact hunseen
  · cases h

theorem nearest_of_tryResolve (hs : s.Ordered) {id : Nat} (hid : id < s.all.length)
    {t : TableSymbol} (h : s.tryResolve .table k id = .ok (some t)) :
    ∃ d, s.Nearest k id d ∧ s.findIn? k d = some (.table t) := by
  rw [tryResolve, except_bind_ok] at h
  obtain ⟨found, hlookup, h⟩ := h
  rcases lookup_nearest hs hid hlookup with ⟨rfl, -⟩ | ⟨d, symbol, hnearest, hfind, rfl⟩
  · cases h
  · refine ⟨d, hnearest, ?_⟩
    cases symbol with
    | table t' =>
      cases h
      exact hfind
    | _ => cases h

/-- Binding a name where it is not seen hides no other binding of it. -/
theorem Nearest.add (hs : s.Ordered) {id : Nat} (hid : id < s.all.length) {symbol : Symbol}
    (h : s.add id k symbol = .ok s') (hnearest : s.Nearest k i d) : s'.Nearest k i d := by
  have hunseen := add_unseen hs hid h
  obtain ⟨hfree, rfl⟩ := add_eq_ok hs hid h
  have hother {i : Nat} (hi : i ≠ id) :
      (s.mapSymbols id (· ++ [(k, symbol)])).findIn? k i = s.findIn? k i :=
    mapSymbols_findIn?_of_ne s _ hi k
  induction hnearest with
  | @here i symbol hfind =>
    have hne : i ≠ id := fun he => hunseen ⟨i, he ▸ .here hfind⟩
    exact .here ((hother hne).trans hfind)
  | @outer i j d hfree' hparent hj ih =>
    have hne : i ≠ id := fun he => hunseen ⟨d, he ▸ .outer hfree' hparent hj⟩
    exact .outer ((hother hne).trans hfree') (by simpa using hparent) ih

/-! ## Work that leaves a name as it is -/

/-- The scopes of `s` bind the name in `s'` as they did, but for marks of tables. -/
structure Agrees (k : String) (s s' : Scopes) : Prop where
  length_le : s.all.length ≤ s'.all.length
  parent : ∀ i < s.all.length, s'.parentOf i = s.parentOf i
  same : ∀ i < s.all.length, s'.findIn? k i = s.findIn? k i ∨ ∃ t b,
    s.findIn? k i = some (.table t) ∧ s'.findIn? k i = some (.table { t with nullable := b })

namespace Agrees

theorem findIn?_eq_none (h : Agrees k s s') (hi : i < s.all.length) :
    s'.findIn? k i = none ↔ s.findIn? k i = none := by
  rcases h.same i hi with hsame | ⟨t, b, hold, hnew⟩
  · rw [hsame]
  · simp [hold, hnew]

theorem nearest_iff (h : Agrees k s s') (hs : s.Ordered) (hi : i < s.all.length) :
    s'.Nearest k i d ↔ s.Nearest k i d := by
  constructor
  · intro hnearest
    induction hnearest with
    | @here i symbol hfind =>
      cases hold : s.findIn? k i with
      | none => simp [(h.findIn?_eq_none hi).2 hold] at hfind
      | some old => exact .here hold
    | @outer i j d hfree hparent _ ih =>
      have hparent' := (h.parent i hi).symm.trans hparent
      have hj := Nat.lt_trans (hs i j hparent') hi
      exact .outer ((h.findIn?_eq_none hi).1 hfree) hparent' (ih hj)
  · intro hnearest
    induction hnearest with
    | @here i symbol hfind =>
      cases hnew : s'.findIn? k i with
      | none => simp [(h.findIn?_eq_none hi).1 hnew] at hfind
      | some new => exact .here hnew
    | @outer i j d hfree hparent _ ih =>
      exact .outer ((h.findIn?_eq_none hi).2 hfree) ((h.parent i hi).trans hparent)
        (ih (Nat.lt_trans (hs i j hparent) hi))

theorem columns (h : Agrees k s s') {t : TableSymbol} (hfind : s.findIn? k i = some (.table t)) :
    ∃ t', s'.findIn? k i = some (.table t') ∧ t'.columns = t.columns := by
  rcases h.same i (lt_length_of_findIn? hfind) with hsame | ⟨t', b, hold, hnew⟩
  · exact ⟨t, hsame.trans hfind, rfl⟩
  · cases hfind.symm.trans hold
    exact ⟨_, hnew, rfl⟩

end Agrees

/-- Work in one scope that leaves the name there. -/
theorem Within.agrees {id : Nat} (hw : s.Within id s')
    (hid : s'.findIn? k id = s.findIn? k id ∨ ∃ t b,
      s.findIn? k id = some (.table t) ∧ s'.findIn? k id = some (.table { t with nullable := b })) :
    Agrees k s s' := by
  refine ⟨hw.length_le, hw.parent, fun i hi => ?_⟩
  by_cases hne : i = id
  · exact hne ▸ hid
  · exact .inl (hw.frame i hi hne k)

theorem enter_agrees (kind : ScopeKind) (name k : String) : Agrees k s (s.entered kind name) := by
  refine ⟨by simp, fun i hi => ?_, fun i _ => .inl (enter_findIn? kind name k i)⟩
  rw [enter_parentOf, if_neg (Nat.ne_of_lt hi)]

end SchemaQuery.Scopes
