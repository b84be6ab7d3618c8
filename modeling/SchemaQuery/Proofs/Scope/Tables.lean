-- SUMMARY: What holds of all symbols that are bound in any scope, and the steps that keep it.
import SchemaQuery.Proofs.Scope.Lookup

/-!
# Bound symbols

A property of symbols and their keys holds in all scopes as long as it holds of every
symbol that is bound. Nothing else is needed: opening and closing scopes binds none, and
a change of a symbol has to keep the property. What a lookup finds is bound somewhere, so
it has the property. `AllTables` is the case of properties of tables, which updates of
accumulators have in any case.
-/

namespace SchemaQuery

/-- A symbol that has a property if it is a table. -/
def Symbol.Satisfies (P : TableSymbol → Prop) : Symbol → Prop
  | .table t => P t
  | .refresh _ => True

theorem Scope.mem_replaceEntry {a : String} {entry e : String × Symbol}
    {symbols : List (String × Symbol)} (h : e ∈ replaceEntry a entry symbols) :
    e ∈ symbols ∨ e = entry := by
  induction symbols with
  | nil => cases h
  | cons first rest ih =>
    simp only [replaceEntry] at h
    split at h
    · exact (List.mem_cons.1 h).symm.imp_left (List.mem_cons_of_mem _)
    · rcases List.mem_cons.1 h with rfl | h
      · exact .inl (List.mem_cons_self ..)
      · exact (ih h).imp_left (List.mem_cons_of_mem _)

namespace Scopes

variable {s s' : Scopes} {k : String} {id : Nat}

theorem leave_all (h : s.leave = .ok s') : s'.all = s.all := by
  rw [leave_eq, except_bind_ok] at h
  obtain ⟨id, -, h⟩ := h
  obtain ⟨sc, -, hpure⟩ := except_bind_ok.1 h
  cases hpure
  rfl

theorem mem_symbols_of_findIn? {i : Nat} {symbol : Symbol} (h : s.findIn? k i = some symbol) :
    ∃ sc, s.all[i]? = some sc ∧ (k, symbol) ∈ sc.symbols := by
  obtain ⟨sc, hsc, hfind⟩ := Option.bind_eq_some_iff.1 h
  obtain ⟨e, he, rfl⟩ := Option.map_eq_some_iff.1 hfind
  refine ⟨sc, hsc, ?_⟩
  have hkey : e.1 = k := by simpa using List.find?_some he
  exact hkey ▸ List.mem_of_find?_eq_some he

/-- What a lookup finds is bound in some scope. -/
theorem exists_findIn?_of_lookup {symbol : Symbol} (h : s.lookup k id = .ok (some symbol)) :
    ∃ i, s.findIn? k i = some symbol := by
  rw [lookup, except_bind_ok] at h
  obtain ⟨chain, -, hfound⟩ := h
  obtain ⟨i, -, hi⟩ := List.exists_of_findSome?_eq_some (except_pure_ok.1 hfound)
  exact ⟨i, hi⟩

/-- What is resolved to a kind is bound in some scope. -/
theorem exists_symbol_of_resolve {α : Type} {view : SymbolView α} {x : α}
    (h : s.resolve view k id = .ok x) :
    ∃ i symbol, s.findIn? k i = some symbol ∧ view.get? symbol = some x := by
  rw [resolve, except_bind_ok] at h
  obtain ⟨found, hlookup, h⟩ := h
  cases found with
  | none => cases h
  | some symbol =>
    obtain ⟨i, hi⟩ := exists_findIn?_of_lookup hlookup
    refine ⟨i, symbol, hi, ?_⟩
    simp only [cast] at h
    cases hget : view.get? symbol with
    | none => simp [hget] at h
    | some y =>
      rw [hget] at h
      cases h
      rfl

theorem exists_findIn?_of_resolve {t : TableSymbol} (h : s.resolve .table k id = .ok t) :
    ∃ i, s.findIn? k i = some (.table t) := by
  obtain ⟨i, symbol, hi, hget⟩ := exists_symbol_of_resolve h
  cases symbol with
  | table t' =>
    cases hget
    exact ⟨i, hi⟩
  | refresh calls => cases hget

theorem exists_findIn?_of_tryResolve {t : TableSymbol}
    (h : s.tryResolve .table k id = .ok (some t)) : ∃ i, s.findIn? k i = some (.table t) := by
  rw [tryResolve, except_bind_ok] at h
  obtain ⟨found, hlookup, h⟩ := h
  cases found with
  | none => cases h
  | some symbol =>
    cases symbol with
    | table t' =>
      cases h
      exact exists_findIn?_of_lookup hlookup
    | refresh calls => cases h

/-! ## Symbols -/

/-- All symbols that are bound have a property, which may depend on the key. -/
def AllBindings (P : String → Symbol → Prop) (s : Scopes) : Prop :=
  ∀ sc ∈ s.all, ∀ e ∈ sc.symbols, P e.1 e.2

namespace AllBindings

variable {P : String → Symbol → Prop}

theorem of_findIn? (h : s.AllBindings P) {i : Nat} {symbol : Symbol}
    (hfind : s.findIn? k i = some symbol) : P k symbol := by
  obtain ⟨sc, hsc, hmem⟩ := mem_symbols_of_findIn? hfind
  exact h sc (List.mem_of_getElem? hsc) _ hmem

theorem of_lookup (h : s.AllBindings P) {symbol : Symbol}
    (hfound : s.lookup k id = .ok (some symbol)) : P k symbol := by
  obtain ⟨i, hi⟩ := exists_findIn?_of_lookup hfound
  exact h.of_findIn? hi

theorem empty : AllBindings P .empty := by
  intro sc hsc
  cases hsc

theorem of_all_eq (h : s.AllBindings P) (hall : s'.all = s.all) : s'.AllBindings P := by
  unfold AllBindings
  rwa [hall]

theorem enter (h : s.AllBindings P) (kind : ScopeKind) (name : String) :
    (s.entered kind name).AllBindings P := by
  intro sc hsc
  rcases List.mem_append.1 hsc with hsc | hsc
  · exact h sc hsc
  · obtain rfl := List.mem_singleton.1 hsc
    simp

theorem leave (h : s.AllBindings P) (hleave : s.leave = .ok s') : s'.AllBindings P :=
  h.of_all_eq (leave_all hleave)

/-- Bindings change one by one: each is an old one or has the property. -/
theorem mapSymbols (h : s.AllBindings P) {f : List (String × Symbol) → List (String × Symbol)}
    (hf : ∀ symbols, ∀ e ∈ f symbols, e ∈ symbols ∨ P e.1 e.2) :
    (s.mapSymbols id f).AllBindings P := by
  intro sc hsc
  obtain ⟨i, hi⟩ := List.mem_iff_getElem?.1 hsc
  simp only [Scopes.mapSymbols, List.getElem?_modify, Option.map_eq_map,
    Option.map_eq_some_iff] at hi
  obtain ⟨old, hold, rfl⟩ := hi
  have hkept := h old (List.mem_of_getElem? hold)
  split
  · intro e he
    exact (hf _ e he).elim (hkept e) fun hsat => hsat
  · exact hkept

theorem add (h : s.AllBindings P) {a : String} {symbol : Symbol} (hsat : P a symbol)
    (hadd : s.add id a symbol = .ok s') : s'.AllBindings P := by
  rw [Scopes.add_eq, except_bind_ok] at hadd
  obtain ⟨found, -, hadd⟩ := hadd
  cases found with
  | some old => cases hadd
  | none =>
    cases hadd
    refine h.mapSymbols fun symbols e he => ?_
    rcases List.mem_append.1 he with he | he
    · exact .inl he
    · obtain rfl := List.mem_singleton.1 he
      exact .inr hsat

theorem update (h : s.AllBindings P) {a : String} {symbol : Symbol} (hsat : P a symbol)
    (hupdate : s.update a id symbol = .ok s') : s'.AllBindings P := by
  rw [Scopes.update_eq, except_bind_ok] at hupdate
  obtain ⟨ids, -, hupdate⟩ := hupdate
  split at hupdate
  · cases hupdate
    refine h.mapSymbols fun symbols e he => ?_
    rcases Scope.mem_replaceEntry he with he | rfl
    · exact .inl he
    · exact .inr hsat
  · cases hupdate

/-- A change of a symbol that keeps the property. -/
theorem modify (h : s.AllBindings P) {α : Type} {view : SymbolView α} {a : String} {f : α → α}
    (hf : ∀ symbol x, P a symbol → view.get? symbol = some x → P a (view.put (f x)))
    (hmodify : s.modify view a id f = .ok s') : s'.AllBindings P := by
  rw [Scopes.modify_eq, except_bind_ok] at hmodify
  obtain ⟨x, hx, hupdate⟩ := hmodify
  obtain ⟨i, symbol, hi, hget⟩ := exists_symbol_of_resolve hx
  exact h.update (hf symbol x (h.of_findIn? hi) hget) hupdate

end AllBindings

/-! ## Tables -/

variable {P : TableSymbol → Prop}

/-- All tables that are bound have a property. -/
def AllTables (P : TableSymbol → Prop) (s : Scopes) : Prop :=
  ∀ sc ∈ s.all, ∀ e ∈ sc.symbols, e.2.Satisfies P

theorem allTables_iff : s.AllTables P ↔ s.AllBindings fun _ symbol => symbol.Satisfies P := Iff.rfl

namespace AllTables

theorem of_findIn? (h : s.AllTables P) {i : Nat} {t : TableSymbol}
    (hfind : s.findIn? k i = some (.table t)) : P t :=
  (allTables_iff.1 h).of_findIn? hfind

theorem of_resolve (h : s.AllTables P) {t : TableSymbol} (ht : s.resolve .table k id = .ok t) :
    P t := by
  obtain ⟨i, hi⟩ := exists_findIn?_of_resolve ht
  exact h.of_findIn? hi

theorem of_tryResolve (h : s.AllTables P) {t : TableSymbol}
    (ht : s.tryResolve .table k id = .ok (some t)) : P t := by
  obtain ⟨i, hi⟩ := exists_findIn?_of_tryResolve ht
  exact h.of_findIn? hi

theorem empty : AllTables P .empty := allTables_iff.2 .empty

theorem enter (h : s.AllTables P) (kind : ScopeKind) (name : String) :
    (s.entered kind name).AllTables P :=
  allTables_iff.2 ((allTables_iff.1 h).enter kind name)

theorem leave (h : s.AllTables P) (hleave : s.leave = .ok s') : s'.AllTables P :=
  allTables_iff.2 ((allTables_iff.1 h).leave hleave)

theorem add (h : s.AllTables P) {a : String} {symbol : Symbol} (hsat : symbol.Satisfies P)
    (hadd : s.add id a symbol = .ok s') : s'.AllTables P :=
  allTables_iff.2 ((allTables_iff.1 h).add hsat hadd)

/-- A change of a table that keeps the property. -/
theorem modifyTable (h : s.AllTables P) {a : String} {f : TableSymbol → TableSymbol}
    (hf : ∀ t, P t → P (f t)) (hmodify : s.modify .table a id f = .ok s') : s'.AllTables P := by
  refine allTables_iff.2 ((allTables_iff.1 h).modify (fun symbol t hsat hget => ?_) hmodify)
  cases symbol with
  | table t' =>
    cases hget
    exact hf t hsat
  | refresh calls => cases hget

/-- A change of the updates of accumulators. -/
theorem modifyRefresh (h : s.AllTables P) {a : String} {f : List RefreshCall → List RefreshCall}
    (hmodify : s.modify .refresh a id f = .ok s') : s'.AllTables P := by
  refine allTables_iff.2 ((allTables_iff.1 h).modify (fun _ calls _ _ => ?_) hmodify)
  exact trivial

end AllTables

end Scopes

end SchemaQuery
