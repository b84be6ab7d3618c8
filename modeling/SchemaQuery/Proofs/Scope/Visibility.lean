-- SUMMARY: Which lookups see a new binding, and that all others stay as they were.
import SchemaQuery.Proofs.Scope.Changes
import SchemaQuery.Scope.Operation

/-!
# Visibility

A name is bound in a scope only if the scope itself does not see it. The scopes below
may bind the name already, and so hide the new binding. It is seen from a scope
exactly if the walk outward comes to the scope of the binding before it comes to
another binding of the name (`Reaches`), and all other lookups answer as before. The
scopes need not be in order for this.
-/

namespace SchemaQuery.Scopes

variable {s s' : Scopes} {id i : Nat} {a k : String} {symbol : Symbol}

/-- The walk from the scope `i` comes to the scope `id`, and no scope before binds the name. -/
def Reaches (s : Scopes) (k : String) (i id : Nat) : Prop :=
  ∃ before after, s.chain i = .ok (before ++ id :: after) ∧ ∀ j ∈ before, s.findIn? k j = none

theorem lookup_of_chain {ids : List Nat} (h : s.chain i = .ok ids) :
    s.lookup k i = .ok (ids.findSome? (s.findIn? k)) := by
  rw [lookup, h]
  rfl

/-- A lookup answers the same if the walk and what it comes to first are the same. -/
theorem lookup_congr (hchain : s'.chain i = s.chain i)
    (hfirst : ∀ ids, s.chain i = .ok ids →
      ids.findSome? (s'.findIn? k) = ids.findSome? (s.findIn? k)) :
    s'.lookup k i = s.lookup k i := by
  cases h : s.chain i with
  | error e =>
    rw [lookup, lookup, hchain, h]
    rfl
  | ok ids => rw [lookup_of_chain h, lookup_of_chain (hchain.trans h), hfirst ids h]

theorem findSome?_findIn?_congr {ids : List Nat}
    (h : ∀ j ∈ ids, s'.findIn? k j = s.findIn? k j) :
    ids.findSome? (s'.findIn? k) = ids.findSome? (s.findIn? k) := by
  induction ids with
  | nil => rfl
  | cons j ids ih =>
    obtain ⟨hj, hids⟩ := List.forall_mem_cons.1 h
    rw [List.findSome?_cons, List.findSome?_cons, hj, ih hids]

/-! ## A new binding -/

theorem add_chain (h : s.add id a symbol = .ok s') (i : Nat) : s'.chain i = s.chain i := by
  obtain ⟨ids, -, -, rfl⟩ := add_eq_ok_iff.1 h
  exact chain_congr (mapSymbols_length s id _) (mapSymbols_parentOf s id _) i

theorem add_findIn?_eq (h : s.add id a symbol = .ok s') (k : String) (i : Nat) :
    s'.findIn? k i = if i = id ∧ k = a then some symbol else s.findIn? k i := by
  obtain ⟨ids, hpath, hfree, rfl⟩ := add_eq_ok_iff.1 h
  obtain ⟨rest, rfl⟩ := hpath.head
  exact append_findIn? hpath.start_lt (hfree id (List.mem_cons_self ..)) k i

/-- Lookups of other names and walks that pass the scope by do not come to the binding. -/
theorem add_lookup_eq (h : s.add id a symbol = .ok s')
    (hother : k = a → ∀ ids, s.chain i = .ok ids → id ∉ ids) : s'.lookup k i = s.lookup k i := by
  refine lookup_congr (add_chain h i) fun ids hids => findSome?_findIn?_congr fun j hj => ?_
  rw [add_findIn?_eq h, if_neg]
  rintro ⟨rfl, hk⟩
  exact hother hk ids hids hj

/-- What a walk comes to before the scope of the binding is unchanged. -/
theorem add_findSome?_before (h : s.add id a symbol = .ok s') {before after : List Nat}
    (hchain : s.chain i = .ok (before ++ id :: after)) :
    before.findSome? (s'.findIn? a) = before.findSome? (s.findIn? a) := by
  refine findSome?_findIn?_congr fun j hj => ?_
  rw [add_findIn?_eq h, if_neg]
  rintro ⟨rfl, -⟩
  have hnodup := (chain_eq_ok_iff.1 hchain).nodup
  exact (List.nodup_append'.1 hnodup).2.2 hj (List.mem_cons_self ..)

/-- A walk that comes to the scope of the binding before it comes to the name found nothing, and now
    it finds the binding. -/
theorem add_lookup_of_reaches (h : s.add id a symbol = .ok s') (hreach : s.Reaches a i id) :
    s.lookup a i = .ok none ∧ s'.lookup a i = .ok (some symbol) := by
  obtain ⟨before, after, hchain, hbefore⟩ := hreach
  obtain ⟨ids, hpath, hfree, -⟩ := add_eq_ok_iff.1 h
  have hi := chain_eq_ok_iff.1 hchain
  -- from the scope of the binding on, the walk goes where the name was found free
  obtain ⟨rfl, -⟩ := hi.suffix.unique hpath
  have hnone : before.findSome? (s.findIn? a) = none := List.findSome?_eq_none_iff.2 hbefore
  constructor
  · rw [lookup_of_chain hchain, List.findSome?_append, hnone,
      List.findSome?_eq_none_iff.2 hfree, Option.none_or]
  · rw [lookup_of_chain ((add_chain h i).trans hchain), List.findSome?_append,
      add_findSome?_before h hchain, hnone, List.findSome?_cons, add_findIn?_eq h,
      if_pos ⟨rfl, rfl⟩, Option.none_or]

/-- A walk that comes to another binding of the name first stops there as before. -/
theorem add_lookup_of_hidden (h : s.add id a symbol = .ok s') (hhidden : ¬ s.Reaches a i id) :
    s'.lookup a i = s.lookup a i := by
  by_cases hmem : ∃ ids, s.chain i = .ok ids ∧ id ∈ ids
  · obtain ⟨ids, hchain, hid⟩ := hmem
    obtain ⟨before, after, rfl⟩ := List.append_of_mem hid
    have hsame := add_findSome?_before h hchain
    -- the name is bound before the walk comes to the scope
    have hbound : before.findSome? (s.findIn? a) ≠ none := fun hnone =>
      hhidden ⟨before, after, hchain, List.findSome?_eq_none_iff.1 hnone⟩
    obtain ⟨found, hfound⟩ := Option.ne_none_iff_exists'.1 hbound
    rw [lookup_of_chain hchain, lookup_of_chain ((add_chain h i).trans hchain),
      List.findSome?_append, List.findSome?_append, hsame, hfound, Option.some_or, Option.some_or]
  · exact add_lookup_eq h fun _ ids hids hid => hmem ⟨ids, hids, hid⟩

/-! ## Siblings and enclosing scopes -/

/-- The walk from another scope with the same parent passes the scope by. -/
theorem not_mem_chain_of_sibling {ids : List Nat} (hpath : s.Path id ids none) (hne : i ≠ id)
    (hparent : s.parentOf i = s.parentOf id) {ids' : List Nat} (hchain : s.chain i = .ok ids') :
    id ∉ ids' := by
  intro hmem
  cases chain_eq_ok_iff.1 hchain with
  | root _ _ => exact hne (List.mem_singleton.1 hmem).symm
  | outer hp hrest =>
    obtain ⟨rest, rfl, hrest'⟩ := hpath.parent (hparent.symm.trans hp)
    obtain ⟨rfl, -⟩ := hrest.unique hrest'
    rcases List.mem_cons.1 hmem with heq | hmem
    · exact hne heq.symm
    · exact (List.nodup_cons.1 hpath.nodup).1 hmem

/-- The walk from an enclosing scope does not come back. -/
theorem not_mem_chain_of_enclosing {ids : List Nat} (hpath : s.Path id ids none) (hmem : i ∈ ids)
    (hne : i ≠ id) {ids' : List Nat} (hchain : s.chain i = .ok ids') : id ∉ ids' := by
  obtain ⟨rest, rfl⟩ := hpath.head
  obtain ⟨before, rest', hsplit, hi⟩ := hpath.split hmem
  obtain ⟨rfl, -⟩ := hi.unique (chain_eq_ok_iff.1 hchain)
  have hnodup := hpath.nodup
  cases before with
  | nil => exact absurd (List.cons.inj hsplit).1.symm hne
  | cons x before =>
    obtain ⟨rfl, rfl⟩ := List.cons.inj hsplit
    exact fun h => (List.nodup_cons.1 hnodup).1 (List.mem_append_right _ h)

/-- Binding a name has its lexical effect and no other. A lookup of the name that comes to the scope
    before it comes to the name found nothing and now gives the new symbol; every other lookup is
    unchanged, so that no scope with the same parent and no enclosing scope observes the binding. -/
theorem add_lexical (h : s.add id a symbol = .ok s') :
    (∀ i, s.Reaches a i id → s.lookup a i = .ok none ∧ s'.lookup a i = .ok (some symbol)) ∧
    (∀ i k, ¬ (k = a ∧ s.Reaches a i id) → s'.lookup k i = s.lookup k i) ∧
    (∀ i k, i ≠ id → s.parentOf i = s.parentOf id → s'.lookup k i = s.lookup k i) ∧
    ∀ i k ids, s.chain id = .ok ids → i ∈ ids → i ≠ id → s'.lookup k i = s.lookup k i := by
  obtain ⟨ids, hpath, -⟩ := add_eq_ok_iff.1 h
  refine ⟨fun i => add_lookup_of_reaches h, fun i k hother => ?_, fun i k hne hparent => ?_,
    fun i k ids' hids hmem hne => ?_⟩
  · by_cases hk : k = a
    · subst hk
      exact add_lookup_of_hidden h fun hreach => hother ⟨rfl, hreach⟩
    · exact add_lookup_eq h fun hk' => absurd hk' hk
  · exact add_lookup_eq h fun _ _ => not_mem_chain_of_sibling hpath hne hparent
  · exact add_lookup_eq h fun _ _ => not_mem_chain_of_enclosing (chain_eq_ok_iff.1 hids) hmem hne

/-- Two operands of a union, the left one with two blocks below. A table of the left operand is seen
    from the block that binds nothing. The other block has a table of that name itself, and the right
    operand and the union see none. -/
theorem add_lexical_union :
    let table (a : String) : Symbol := .table (.plain a .subquery [] true .object)
    let s := Scopes.empty.afterAll [.enter .setOperator "Union", .create .query "Left" (some 0),
      .create .query "Right" (some 0), .create .subquery "Inner" (some 1), .add 3 "a" (table "inner"),
      .create .subquery "Other" (some 1)]
    ∃ s', s.add 1 "a" (table "left") = .ok s' ∧
      s'.lookup "a" 4 = .ok (some (table "left")) ∧ s'.lookup "a" 3 = .ok (some (table "inner")) ∧
      s'.lookup "a" 2 = .ok none ∧ s'.lookup "a" 0 = .ok none := by
  intro table s
  obtain ⟨hseen, hother, hsibling, henclosing⟩ :=
    add_lexical (rfl : s.add 1 "a" (table "left") = .ok _)
  have hinner : s.findIn? "a" 3 = some (table "inner") := rfl
  refine ⟨_, rfl, ?_, ?_, ?_, ?_⟩
  · exact (hseen 4 ⟨[4], [0], rfl, List.forall_mem_singleton.2 rfl⟩).2
  · refine (hother 3 "a" ?_).trans rfl
    rintro ⟨-, before, after, hchain, hfree⟩
    have hids : [3, 1, 0] = before ++ 1 :: after := Except.ok.inj hchain
    have hmem : 3 ∈ before := by
      cases before with
      | nil => cases hids
      | cons x before => exact (List.cons.inj hids).1 ▸ List.mem_cons_self ..
    rw [hfree 3 hmem] at hinner
    cases hinner
  · exact (hsibling 2 "a" (by decide) rfl).trans rfl
  · exact (henclosing 0 "a" [1, 0] rfl (by simp) (by decide)).trans rfl

end SchemaQuery.Scopes
