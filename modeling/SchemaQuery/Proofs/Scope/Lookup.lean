-- SUMMARY: Lookups in the tree of scopes: chains, nearest bindings, and the effect of binding a name.
import SchemaQuery.Proofs.Scope.Steps

/-!
# Lookups

In a tree whose parents come before their children the walk outward from a scope
comes to a root, and it starts at the scope itself. So a name that a scope binds is
found there, whatever the scopes around it bind.

What a scope binds is given by `findIn?`. Binding a name and changing the symbol
of a name are described by their effect on it.
-/

namespace SchemaQuery

/-! ## Keys -/

theorem cteKey_injective {n n' : String} (h : cteKey n = cteKey n') : n = n' := by
  have hchars := congrArg String.toList h
  simp only [cteKey, String.toList_append, List.append_cancel_right_eq] at hchars
  exact String.toList_injective hchars

theorem cteKey_ne_refreshKey (n a : String) : cteKey n ≠ refreshKey a := by
  intro h
  have hlast := congrArg (fun s => s.toList.getLast?) h
  simp [cteKey, refreshKey, List.getLast?_append] at hlast

/-- A compound alias is a key of updates only if its right part is one. -/
theorem eq_refreshKey_of_joined {left right a : String} (h : left ++ "+" ++ right = refreshKey a) :
    ∃ b, right = refreshKey b := by
  have hchars := congrArg String.toList h
  simp only [refreshKey, String.toList_append, List.append_assoc] at hchars
  rcases List.append_eq_append_iff.1 hchars with ⟨front, -, hright⟩ | ⟨front, -, hkey⟩
  · cases front with
    | nil => simp at hright
    | cons _ front =>
      refine ⟨String.ofList front, String.toList_injective ?_⟩
      simp only [refreshKey, String.toList_append, String.toList_ofList]
      exact (List.cons.inj hright).2
  · have hplus : '+' ∈ "#refresh".toList := by
      rw [hkey]
      simp
    exact absurd hplus (by decide)

theorem isDigit_of_mem_toString {n : Nat} {c : Char} (h : c ∈ (toString n).toList) :
    c.isDigit = true := by
  rw [Nat.toString_eq_ofList_toDigits, String.toList_ofList] at h
  exact Nat.isDigit_of_mem_toDigits (by decide) (by decide) h

theorem toString_nat_injective {n m : Nat} (h : toString n = toString m) : n = m := by
  simp only [Nat.toString_eq_ofList_toDigits] at h
  rw [← @Nat.ofDigitChars_ten_toDigits n, String.ofList_injective h, Nat.ofDigitChars_ten_toDigits]

/-- A name that ends in a number is no key of updates. -/
theorem numbered_ne_refreshKey (name a : String) (n : Nat) : name ++ toString n ≠ refreshKey a := by
  intro h
  have hlast : (toString n).toList.getLast? = some 'h' ∨ (toString n).toList = [] := by
    have hlast := congrArg (fun s => s.toList.getLast?) h
    simp only [refreshKey, String.toList_append, List.getLast?_append] at hlast
    cases hdigits : (toString n).toList.getLast? with
    | none => exact .inr (List.getLast?_eq_none_iff.1 hdigits)
    | some c =>
      rw [hdigits] at hlast
      exact .inl hlast
  rcases hlast with hlast | hnil
  · exact absurd (isDigit_of_mem_toString (List.mem_of_getLast? hlast)) (by decide)
  · rw [Nat.toString_eq_ofList_toDigits, String.toList_ofList] at hnil
    exact Nat.toDigits_ne_nil hnil

/-! ## One scope -/

namespace Scope

theorem find?_append (sc : Scope) (entry : String × Symbol) (k : String) :
    ({ sc with symbols := sc.symbols ++ [entry] } : Scope).find? k =
      (sc.find? k).or (if entry.1 = k then some entry.2 else none) := by
  simp only [find?, List.find?_append, Option.map_or]
  by_cases h : entry.1 = k
  · simp [h]
  · simp [h]

theorem find?_replaceEntry {symbols : List (String × Symbol)} {a : String} (symbol : Symbol)
    (h : (symbols.find? (·.1 = a)).isSome) (k : String) :
    ((replaceEntry a (a, symbol) symbols).find? (·.1 = k)).map (·.2) =
      if k = a then some symbol else (symbols.find? (·.1 = k)).map (·.2) := by
  induction symbols with
  | nil => simp at h
  | cons e rest ih =>
    by_cases he : e.1 = a
    · by_cases hk : k = a
      · simp [replaceEntry, he, hk]
      · have hak : ¬a = k := fun hak => hk hak.symm
        simp [replaceEntry, he, hk, hak]
    · have hrest : (rest.find? (·.1 = a)).isSome := by simpa [he] using h
      by_cases hk : e.1 = k
      · have hka : ¬k = a := fun hka => he (hk.trans hka)
        simp [replaceEntry, hk, hka]
      · simpa [replaceEntry, he, hk] using ih hrest

end Scope

namespace Scopes

variable {s : Scopes}

/-! ## Chains -/

/-- The chain of a scope starts at the scope and goes on with older ones. -/
theorem chain_eq_ok (hs : s.Ordered) {id : Nat} (hid : id < s.all.length) :
    ∃ rest, s.chain id = .ok (id :: rest) ∧ ∀ j ∈ rest, j < id := by
  obtain ⟨rest, hpath, hpair⟩ := hs.path hid
  exact ⟨rest, chain_of_path hpath, fun _ => List.rel_of_pairwise_cons hpair⟩

/-! ## Nearest bindings -/

theorem lt_length_of_findIn? {k : String} {id : Nat} {symbol : Symbol}
    (h : s.findIn? k id = some symbol) : id < s.all.length := by
  by_contra hlt
  simp [findIn?, List.getElem?_eq_none (Nat.le_of_not_lt hlt)] at h

theorem lookup_eq_ok (hs : s.Ordered) {id : Nat} (hid : id < s.all.length) (k : String) :
    ∃ rest, s.chain id = .ok (id :: rest) ∧
      s.lookup k id = .ok ((s.findIn? k id).or (rest.findSome? (s.findIn? k))) := by
  obtain ⟨rest, hchain, -⟩ := chain_eq_ok hs hid
  refine ⟨rest, hchain, ?_⟩
  simp only [lookup, hchain, bind, Except.bind, pure, Except.pure, List.findSome?_cons]
  cases s.findIn? k id <;> rfl

/-- A name that a scope binds is found in that scope. -/
theorem lookup_of_findIn? (hs : s.Ordered) {k : String} {id : Nat} {symbol : Symbol}
    (h : s.findIn? k id = some symbol) : s.lookup k id = .ok (some symbol) := by
  obtain ⟨rest, -, hlookup⟩ := lookup_eq_ok hs (lt_length_of_findIn? h) k
  rw [hlookup, h]
  rfl

theorem resolve_table_of_findIn? (hs : s.Ordered) {k : String} {id : Nat} {t : TableSymbol}
    (h : s.findIn? k id = some (.table t)) : s.resolve .table k id = .ok t := by
  simp [resolve, lookup_of_findIn? hs h, bind, Except.bind, cast, SymbolView.table]

/-! ## Binding -/

@[simp] theorem mapSymbols_current (s : Scopes) (id : Nat) (f) :
    (s.mapSymbols id f).current = s.current := rfl

@[simp] theorem mapSymbols_length (s : Scopes) (id : Nat) (f) :
    (s.mapSymbols id f).all.length = s.all.length := by
  simp [mapSymbols]

@[simp] theorem mapSymbols_parentOf (s : Scopes) (id : Nat) (f) (i : Nat) :
    (s.mapSymbols id f).parentOf i = s.parentOf i := by
  simp only [mapSymbols, parentOf, List.getElem?_modify]
  by_cases h : id = i
  · cases s.all[i]? <;> simp [h]
  · simp [h]

theorem mapSymbols_findIn?_of_ne (s : Scopes) {id i : Nat} (f) (h : i ≠ id) (k : String) :
    (s.mapSymbols id f).findIn? k i = s.findIn? k i := by
  have hne : ¬id = i := fun he => h he.symm
  simp [mapSymbols, findIn?, hne]

theorem mapSymbols_findIn?_self {id : Nat} (hid : id < s.all.length) (f) (k : String) :
    (s.mapSymbols id f).findIn? k id =
      ({ s.all[id] with symbols := f s.all[id].symbols } : Scope).find? k := by
  simp [mapSymbols, findIn?, List.getElem?_eq_getElem hid]

/-- What binding a name in a scope does: the name was free there, and now it is bound. -/
theorem add_eq_ok (hs : s.Ordered) {id : Nat} (hid : id < s.all.length) {a : String}
    {symbol : Symbol} {s' : Scopes} (h : s.add id a symbol = .ok s') :
    s.findIn? a id = none ∧ s' = s.mapSymbols id (· ++ [(a, symbol)]) := by
  obtain ⟨rest, -, hlookup⟩ := lookup_eq_ok hs hid a
  simp only [add_eq, hlookup, bind, Except.bind] at h
  cases hfind : s.findIn? a id with
  | some old => simp [hfind] at h
  | none =>
    refine ⟨rfl, ?_⟩
    simp only [hfind, Option.none_or] at h
    cases hrest : rest.findSome? (s.findIn? a) with
    | some old => simp [hrest] at h
    | none =>
      simp only [hrest, pure, Except.pure, Except.ok.injEq] at h
      exact h.symm

theorem append_findIn? {id : Nat} (hid : id < s.all.length) {a : String} {symbol : Symbol}
    (h : s.findIn? a id = none) (k : String) (i : Nat) :
    (s.mapSymbols id (· ++ [(a, symbol)])).findIn? k i =
      if i = id ∧ k = a then some symbol else s.findIn? k i := by
  by_cases hi : i = id
  · subst hi
    have hfind : s.findIn? k i = s.all[i].find? k := by
      simp [findIn?, List.getElem?_eq_getElem hid]
    rw [mapSymbols_findIn?_self hid, Scope.find?_append, ← hfind]
    by_cases hk : k = a
    · subst hk
      simp [h]
    · have hak : ¬a = k := fun hak => hk hak.symm
      simp [hk, hak]
  · rw [mapSymbols_findIn?_of_ne s _ hi]
    simp [hi]

/-- What changing the symbol of a name that a scope binds does: it changes there. -/
theorem modify_eq_ok (hs : s.Ordered) {α : Type} {view : SymbolView α} {a : String} {id : Nat}
    {f : α → α} {symbol : Symbol} {s' : Scopes} (hfind : s.findIn? a id = some symbol)
    (h : s.modify view a id f = .ok s') :
    ∃ x, view.get? symbol = some x ∧
      s' = s.mapSymbols id (Scope.replaceEntry a (a, view.put (f x))) := by
  obtain ⟨rest, hchain, -⟩ := chain_eq_ok hs (lt_length_of_findIn? hfind)
  simp only [modify_eq, resolve, lookup_of_findIn? hs hfind, bind, Except.bind, cast] at h
  cases hx : view.get? symbol with
  | none => simp [hx] at h
  | some x =>
    refine ⟨x, rfl, ?_⟩
    simp only [hx, update_eq, hchain, bind, Except.bind, bindingScope?, List.find?_cons, hfind,
      Option.isSome_some, pure, Except.pure, Except.ok.injEq] at h
    exact h.symm

theorem replace_findIn? {a : String} {id : Nat} {old : Symbol} (symbol : Symbol)
    (h : s.findIn? a id = some old) (k : String) (i : Nat) :
    (s.mapSymbols id (Scope.replaceEntry a (a, symbol))).findIn? k i =
      if i = id ∧ k = a then some symbol else s.findIn? k i := by
  by_cases hi : i = id
  · subst hi
    have hid := lt_length_of_findIn? h
    have hfind := h
    simp only [findIn?, List.getElem?_eq_getElem hid, Option.bind_some, Scope.find?] at hfind
    have hsome : (s.all[i].symbols.find? (·.1 = a)).isSome := by
      cases hq : s.all[i].symbols.find? (·.1 = a) with
      | none => simp [hq] at hfind
      | some e => rfl
    rw [mapSymbols_findIn?_self hid]
    simp only [Scope.find?, Scope.find?_replaceEntry symbol hsome, findIn?,
      List.getElem?_eq_getElem hid, Option.bind_some, true_and]
  · rw [mapSymbols_findIn?_of_ne s _ hi]
    simp [hi]

end Scopes

end SchemaQuery
