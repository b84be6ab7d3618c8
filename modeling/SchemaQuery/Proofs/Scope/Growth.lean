-- SUMMARY: How the tree of scopes grows while a query is resolved.
import SchemaQuery.Proofs.Scope.Lookup

/-!
# Growth of scopes

Resolution works on one scope at a time. `Within id` relates the scopes before
and after work in the scope `id`: other scopes that existed before keep their
bindings, tables stay bound up to being marked nullable, scopes that were opened
lie below `id`, and the cursor is back. The work of a nested query happens in a
scope of its own, so to the scopes around it nothing has changed
(`Within.nested`).
-/

namespace SchemaQuery

namespace Scopes

/-- What lies below a scope stays there while scopes keep their parents. -/
theorem Below.mono {s s' : Scopes} {i j : Nat} (h : s.Below i j)
    (hparent : ∀ i < s.all.length, s'.parentOf i = s.parentOf i) : s'.Below i j :=
  Relation.TransGen.mono (fun i _ hp => (hparent i (lt_length_of_parentOf hp)).trans hp) _ _ h

theorem Below.of_all_eq {s s' : Scopes} {i j : Nat} (h : s.Below i j) (hall : s'.all = s.all) :
    s'.Below i j :=
  h.mono fun i _ => by simp only [parentOf, hall]

/-- The work between `s` and `s'` was done in the scope `id` and in scopes opened since. -/
structure Within (id : Nat) (s s' : Scopes) : Prop where
  current : s'.current = s.current
  length_le : s.all.length ≤ s'.all.length
  ordered : s.Ordered → s'.Ordered
  parent : ∀ i < s.all.length, s'.parentOf i = s.parentOf i
  frame : ∀ i < s.all.length, i ≠ id → ∀ k, s'.findIn? k i = s.findIn? k i
  tables : ∀ k t, s.findIn? k id = some (.table t) →
    ∃ b, s'.findIn? k id = some (.table { t with nullable := b })
  opened : ∀ i, s.all.length ≤ i → i < s'.all.length → s'.Below i id

/-- Every binding of a scope is a table. -/
def OnlyTables (s : Scopes) (id : Nat) : Prop :=
  ∀ k symbol, s.findIn? k id = some symbol → ∃ t, symbol = .table t

namespace Within

variable {id : Nat} {s s' s'' : Scopes}

theorem refl (id : Nat) (s : Scopes) : Within id s s where
  current := rfl
  length_le := Nat.le_refl _
  ordered := fun h => h
  parent := fun _ _ => rfl
  frame := fun _ _ _ _ => rfl
  tables := fun _ t h => ⟨t.nullable, h⟩
  opened := by omega

theorem trans (h : Within id s s') (h' : Within id s' s'') : Within id s s'' where
  current := h'.current.trans h.current
  length_le := Nat.le_trans h.length_le h'.length_le
  ordered := fun ho => h'.ordered (h.ordered ho)
  parent := fun i hi =>
    (h'.parent i (Nat.lt_of_lt_of_le hi h.length_le)).trans (h.parent i hi)
  frame := fun i hi hne k =>
    (h'.frame i (Nat.lt_of_lt_of_le hi h.length_le) hne k).trans (h.frame i hi hne k)
  tables := by
    intro k t hfind
    obtain ⟨b, hb⟩ := h.tables k t hfind
    obtain ⟨b', hb'⟩ := h'.tables k _ hb
    exact ⟨b', hb'⟩
  opened := by
    intro i hlo hhi
    by_cases hi : i < s'.all.length
    · exact (h.opened i hlo hi).mono h'.parent
    · exact h'.opened i (Nat.le_of_not_lt hi) hhi

end Within

/-! ## Work in one scope -/

section Binding

variable {s s' : Scopes} {id : Nat}

theorem mapSymbols_ordered (f) (hs : s.Ordered) : (s.mapSymbols id f).Ordered := by
  intro i p hp
  exact hs i p (by simpa using hp)

/-- A change of the bindings of one scope that keeps its tables. -/
theorem mapSymbols_within (f) (htables : ∀ k t, s.findIn? k id = some (.table t) →
    ∃ b, (s.mapSymbols id f).findIn? k id = some (.table { t with nullable := b })) :
    Within id s (s.mapSymbols id f) where
  current := rfl
  length_le := by simp
  ordered := mapSymbols_ordered f
  parent := by simp
  frame := fun _ _ hne k => mapSymbols_findIn?_of_ne s f hne k
  tables := htables
  opened := by simp; omega

theorem add_within (hs : s.Ordered) (hid : id < s.all.length) {a : String} {symbol : Symbol}
    (h : s.add id a symbol = .ok s') : Within id s s' := by
  obtain ⟨hfree, rfl⟩ := add_eq_ok hs hid h
  refine mapSymbols_within _ fun k t hk => ?_
  have hka : ¬k = a := by
    rintro rfl
    rw [hfree] at hk
    cases hk
  exact ⟨t.nullable, by simpa [append_findIn? hid hfree, hka] using hk⟩

theorem add_findIn? (hs : s.Ordered) (hid : id < s.all.length) {a : String} {symbol : Symbol}
    (h : s.add id a symbol = .ok s') (k : String) :
    s'.findIn? k id = if k = a then some symbol else s.findIn? k id := by
  obtain ⟨hfree, rfl⟩ := add_eq_ok hs hid h
  simp [append_findIn? hid hfree]

/-- Marking a table of the scope as nullable. -/
theorem markNullable_within (hs : s.Ordered) {a : String} {t : TableSymbol}
    (hfind : s.findIn? a id = some (.table t))
    (h : s.modify .table a id (fun t => { t with nullable := true }) = .ok s') :
    Within id s s' ∧
      ∀ k, s'.findIn? k id =
        if k = a then some (.table { t with nullable := true }) else s.findIn? k id := by
  obtain ⟨x, hx, rfl⟩ := modify_eq_ok hs hfind h
  obtain rfl : t = x := by simpa [SymbolView.table] using hx
  have hnew := replace_findIn? (.table { t with nullable := true }) hfind
  refine ⟨mapSymbols_within _ fun k t' hk => ?_, ?_⟩
  · by_cases hka : k = a
    · subst hka
      obtain rfl : t = t' := by simpa [hfind] using hk
      exact ⟨true, by simp [hnew, SymbolView.table]⟩
    · exact ⟨t'.nullable, by simpa [hnew, SymbolView.table, hka] using hk⟩
  · intro k
    simp [hnew, SymbolView.table]

end Binding

/-! ## Nested scopes -/

section Nesting

variable {s : Scopes} (kind : ScopeKind) (name : String)

@[simp] theorem enter_length : (s.entered kind name).all.length = s.all.length + 1 := by
  simp [entered]

@[simp] theorem enter_current : (s.entered kind name).current = some s.all.length := rfl

theorem enter_findIn? (k : String) (i : Nat) :
    (s.entered kind name).findIn? k i = s.findIn? k i := by
  simp only [entered, findIn?, List.getElem?_append]
  by_cases hi : i < s.all.length
  · simp [hi]
  · rw [List.getElem?_eq_none (l := s.all) (Nat.le_of_not_lt hi)]
    by_cases h0 : i - s.all.length = 0
    · simp [hi, h0, Scope.find?]
    · simp [hi, h0]

theorem enter_parentOf (i : Nat) :
    (s.entered kind name).parentOf i = if i = s.all.length then s.current else s.parentOf i := by
  have hall : (s.entered kind name).all =
      s.all ++ [⟨s.all.length, s.current, kind, name, [], []⟩] := rfl
  exact parentOf_of_append hall i

theorem enter_ordered (hs : s.Ordered) (hcur : ∀ c, s.current = some c → c < s.all.length) :
    (s.entered kind name).Ordered := by
  intro i p hp
  rw [enter_parentOf] at hp
  by_cases hi : i = s.all.length
  · subst hi
    rw [if_pos rfl] at hp
    exact hcur p hp
  · rw [if_neg hi] at hp
    exact hs i p hp

theorem leave_eq_ok {s s' : Scopes} {id : Nat} (hcur : s.current = some id)
    (hid : id < s.all.length) (h : s.leave = .ok s') :
    s' = { s with current := s.parentOf id } := by
  simp only [leave_eq, currentOr, hcur, scope_eq_ok hid, Bind.bind, Except.bind, pure, Except.pure, Except.ok.injEq] at h
  rw [← h, parentOf, List.getElem?_eq_getElem hid]
  rfl

/-- Work in a new scope changes nothing in the scopes that existed before. -/
theorem nested_unchanged {s s' s'' : Scopes}
    (hwork : Within s.all.length (s.entered kind name) s') (hleave : s'.leave = .ok s'') :
    s''.current = s.current ∧ s''.all = s'.all ∧
      (∀ i < s.all.length, ∀ k, s''.findIn? k i = s.findIn? k i) ∧
      ∀ i < s.all.length, s''.parentOf i = s.parentOf i := by
  have hlen : s.all.length < s'.all.length := by
    have := hwork.length_le
    rw [enter_length] at this
    omega
  have hcur : s'.current = some s.all.length := by
    rw [hwork.current, enter_current]
  obtain rfl := leave_eq_ok hcur hlen hleave
  refine ⟨?_, rfl, ?_, ?_⟩
  · change s'.parentOf s.all.length = s.current
    rw [hwork.parent _ (by simp), enter_parentOf, if_pos rfl]
  · intro i hi k
    change s'.findIn? k i = s.findIn? k i
    rw [hwork.frame i (by simp; omega) (by omega), enter_findIn?]
  · intro i hi
    change s'.parentOf i = s.parentOf i
    rw [hwork.parent i (by simp; omega), enter_parentOf, if_neg (by omega)]

/-- To the scope at work a nested query has only opened scopes below it. -/
theorem Within.nested {s s' s'' : Scopes} {id : Nat} (hcur : s.current = some id)
    (hid : id < s.all.length) (hwork : Within s.all.length (s.entered kind name) s')
    (hleave : s'.leave = .ok s'') : Within id s s'' := by
  obtain ⟨hcurrent, hall, hfind, hparent⟩ := nested_unchanged kind name hwork hleave
  have hlen := hwork.length_le
  rw [enter_length] at hlen
  refine ⟨hcurrent, by rw [hall]; omega, ?_, hparent, fun i hi _ => hfind i hi, ?_, ?_⟩
  · intro hs i p hp
    have hcur' : ∀ c, s.current = some c → c < s.all.length := by
      intro c hc
      obtain rfl : id = c := by simpa [hcur] using hc
      exact hid
    have horder := hwork.ordered (enter_ordered kind name hs hcur')
    exact horder i p (by simpa [parentOf, hall] using hp)
  · intro k t hk
    exact ⟨t.nullable, by rw [hfind id (lt_length_of_findIn? hk)]; exact hk⟩
  · intro i hlo hhi
    have hself : s'.parentOf s.all.length = some id := by
      rw [hwork.parent _ (by simp), enter_parentOf, if_pos rfl, hcur]
    have hbelow : s'.Below i id := by
      by_cases hi : i = s.all.length
      · subst hi
        exact .single hself
      · exact (hwork.opened i (by simp; omega) (hall ▸ hhi)).tail hself
    exact hbelow.of_all_eq hall

end Nesting

end Scopes

end SchemaQuery
