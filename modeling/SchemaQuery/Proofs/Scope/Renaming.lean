-- SUMMARY: When giving a symbol another alias keeps what the symbols say of each other.
import Mathlib.Data.List.Find
import SchemaQuery.Proofs.Scope.Operations

/-!
# Renaming

A plain table names itself: it knows its alias and lists it as the one table that it
is made of. A compound lists the aliases of its sources, and they stand for tables
where it is bound. `Described` says both.

Giving a symbol another alias changes the key and the alias that a table knows, but
not the tables that symbols list. So the renaming of a plain table never keeps the
description, and that of any other symbol keeps it unless a compound lists the old
alias for the symbol that has lost it (`move_described_iff`).
-/

namespace SchemaQuery

/-! ## Descriptions -/

namespace Scopes

/-- From the scope outward the alias stands for a table. -/
def SeesTable (s : Scopes) (a : String) (i : Nat) : Prop :=
  ∃ d t, s.Nearest a i d ∧ s.findIn? a d = some (.table t)

/-- The tables that symbols list are the ones that they are made of. -/
structure Described (s : Scopes) : Prop where
  plain : ∀ {k : String} {i : Nat} {t : TableSymbol}, s.findIn? k i = some (.table t) →
    t.isCompound = false → t.aliasName = k ∧ t.compoundTables = [k]
  compound : ∀ {k : String} {i : Nat} {t : TableSymbol}, s.findIn? k i = some (.table t) →
    t.isCompound = true → ∀ a ∈ t.compoundTables, ∃ t', s.resolve .table a i = .ok t'

variable {s s' : Scopes} {a k source target : String} {i d e : Nat} {symbol : Symbol}

theorem seesTable_of_free (hfree : s.findIn? a i = none) :
    s.SeesTable a i ↔ ∃ p, s.parentOf i = some p ∧ s.SeesTable a p := by
  constructor
  · rintro ⟨d, t, hnearest, hfind⟩
    cases hnearest with
    | here hbound => simp [hfree] at hbound
    | outer _ hparent h => exact ⟨_, hparent, d, t, h, hfind⟩
  · rintro ⟨p, hparent, d, t, hnearest, hfind⟩
    exact ⟨d, t, .outer hfree hparent hnearest, hfind⟩

theorem resolve_table_iff : (∃ t, s.resolve .table a i = .ok t) ↔
    (∃ ids, s.Path i ids none) ∧ s.SeesTable a i := by
  constructor
  · rintro ⟨t, h⟩
    rw [resolve, except_bind_ok] at h
    obtain ⟨found, hlookup, h⟩ := h
    obtain ⟨ids, hpath, rfl⟩ := lookup_eq_ok_iff.1 hlookup
    rw [findSome?_findIn?] at h
    refine ⟨⟨ids, hpath⟩, ?_⟩
    cases hscope : s.bindingScope? a ids with
    | none => simp [hscope] at h
    | some d =>
      have hnearest := hpath.nearest_iff.1 hscope
      obtain ⟨symbol, hfind⟩ := hnearest.bound
      cases symbol with
      | table t => exact ⟨d, t, hnearest, hfind⟩
      | refresh calls =>
        rw [hscope, Option.bind_some, hfind] at h
        cases h
  · rintro ⟨⟨ids, hpath⟩, d, t, hnearest, hfind⟩
    have hlookup : s.lookup a i = .ok (some (.table t)) := by
      refine lookup_eq_ok_iff.2 ⟨ids, hpath, ?_⟩
      rw [findSome?_findIn?, hpath.nearest_iff.2 hnearest, Option.bind_some, hfind]
    refine ⟨t, ?_⟩
    rw [resolve, hlookup]
    rfl

/-- What is seen from a scope only depends on the scopes on its path. -/
theorem Path.nearest_congr {ids : List Nat} {stop : Option Nat} (h : s.Path i ids stop)
    (h' : s'.Path i ids stop) (hfind : ∀ j ∈ ids, s'.findIn? a j = s.findIn? a j) :
    s'.Nearest a i d ↔ s.Nearest a i d := by
  have hsame : s'.bindingScope? a ids = s.bindingScope? a ids := by
    unfold bindingScope?
    exact List.find?_congr fun j hj => by rw [hfind j hj]
  rw [← h'.nearest_iff, hsame, h.nearest_iff]

end Scopes

/-! ## Renamings -/

/-- Under distinct aliases the old one is free after a renaming. -/
theorem Scope.find?_replaceEntry_renamed {symbols : List (String × Symbol)}
    {source target : String} {old : Symbol} (new : Symbol) (hnodup : (symbols.map (·.1)).Nodup)
    (hsource : (source, old) ∈ symbols) (htarget : target ∉ symbols.map (·.1)) (k : String) :
    ((replaceEntry source (target, new) symbols).find? (·.1 = k)).map (·.2) =
      if k = source then none else if k = target then some new
      else (symbols.find? (·.1 = k)).map (·.2) := by
  induction symbols with
  | nil => cases hsource
  | cons e rest ih =>
    obtain ⟨hhead, htail⟩ := List.nodup_cons.1 hnodup
    rw [List.map_cons, List.mem_cons, not_or] at htarget
    obtain ⟨hne, htarget⟩ := htarget
    by_cases he : e.1 = source
    · subst he
      have hfree : rest.find? (·.1 = e.1) = none := by
        refine List.find?_eq_none.2 fun x hx hkey => hhead ?_
        exact List.mem_map.2 ⟨x, hx, of_decide_eq_true hkey⟩
      by_cases hk : k = e.1
      · subst hk
        simp [replaceEntry, hne, hfree]
      · by_cases hkt : k = target
        · simp [replaceEntry, hkt, hne]
        · simp [replaceEntry, hk, hkt, Ne.symm hk, Ne.symm hkt]
    · have hrest : (source, old) ∈ rest := by
        rcases List.mem_cons.1 hsource with rfl | h
        · exact absurd rfl he
        · exact h
      by_cases hk : e.1 = k
      · subst hk
        simp [replaceEntry, he, Ne.symm hne]
      · simpa [replaceEntry, he, hk] using ih htail hrest htarget

namespace Scopes

variable {s s' : Scopes} {a k source target : String} {i d e : Nat} {symbol : Symbol}

/-- The symbol that the scope `d` binds to one alias has got another one, which was not in sight. -/
structure Renamed (s s' : Scopes) (d : Nat) (source target : String) (symbol : Symbol) : Prop where
  length : s'.all.length = s.all.length
  parent : ∀ i, s'.parentOf i = s.parentOf i
  bound : s.findIn? source d = some symbol
  unseen : ¬ s.Sees target d
  find : ∀ k i, s'.findIn? k i = if i = d then
    (if k = source then none else if k = target then some (renamed target symbol)
      else s.findIn? k d) else s.findIn? k i

theorem renamed_of_move {id : Nat} (hs : s.Sound) (h : s.move id source target = .ok s') :
    ∃ d symbol, s.Nearest source id d ∧ Renamed s s' d source target symbol := by
  obtain ⟨ids, d, symbol, hpath, hfree, hnearest, hbound, rfl⟩ := move_eq_ok_iff.1 h
  have hd := hpath.mem_of_nearest hnearest
  refine ⟨d, symbol, hnearest, mapSymbols_length .., mapSymbols_parentOf s _ _, hbound, ?_, ?_⟩
  · rintro ⟨e, he⟩
    obtain ⟨before, rest, rfl, hrest⟩ := hpath.split hd
    obtain ⟨old, hold⟩ := he.bound
    have hnone := hfree e (List.mem_append_right _ (hrest.mem_of_nearest he))
    simp [hold] at hnone
  · intro k i
    by_cases hi : i = d
    · subst hi
      obtain ⟨sc, hsc, hmem⟩ := mem_symbols_of_findIn? hbound
      obtain ⟨hlt, rfl⟩ := List.getElem?_eq_some_iff.1 hsc
      have htarget := not_mem_aliases hsc (hfree i hd)
      rw [mapSymbols_findIn?_self hlt, if_pos rfl, Scope.find?,
        Scope.find?_replaceEntry_renamed _ (hs.distinct i _ hsc) hmem htarget, findIn?, hsc]
      rfl
    · rw [mapSymbols_findIn?_of_ne s _ hi, if_neg hi]

namespace Renamed

variable (h : Renamed s s' d source target symbol)
include h

theorem source_ne_target : source ≠ target := by
  rintro rfl
  exact h.unseen ⟨d, .here h.bound⟩

theorem find_of_ne (hi : i ≠ d) : s'.findIn? k i = s.findIn? k i := by
  rw [h.find, if_neg hi]

theorem find_source : s'.findIn? source d = none := by
  rw [h.find, if_pos rfl, if_pos rfl]

theorem find_target : s'.findIn? target d = some (renamed target symbol) := by
  rw [h.find, if_pos rfl, if_neg h.source_ne_target.symm, if_pos rfl]

theorem find_other (hs : k ≠ source) (ht : k ≠ target) : s'.findIn? k i = s.findIn? k i := by
  rw [h.find, if_neg hs, if_neg ht]
  split
  · rename_i hi
    rw [hi]
  · rfl

theorem path {ids : List Nat} {stop : Option Nat} (hpath : s.Path i ids stop) :
    s'.Path i ids stop :=
  hpath.congr h.length h.parent

/-- What the new alias stood for is still nearer than the renamed symbol. -/
theorem nearest_target (hnearest : s.Nearest target i e) : s'.Nearest target i e ∧ e ≠ d := by
  induction hnearest with
  | @here i _ hfind =>
    have hne : i ≠ d := fun hi => h.unseen ⟨i, hi ▸ .here hfind⟩
    exact ⟨.here ((h.find_of_ne hne).trans hfind), hne⟩
  | @outer i j e hfree hparent hj ih =>
    have hne : i ≠ d := fun hi => h.unseen ⟨e, hi ▸ .outer hfree hparent hj⟩
    exact ⟨.outer ((h.find_of_ne hne).trans hfree) ((h.parent i).trans hparent) ih.1, ih.2⟩

/-- A nearer symbol of the old alias is found as before. -/
theorem nearest_source (hnearest : s.Nearest source i e) (he : e ≠ d) : s'.Nearest source i e := by
  induction hnearest with
  | here hfind => exact .here ((h.find_of_ne he).trans hfind)
  | @outer i j e hfree hparent _ ih =>
    have hne : i ≠ d := by
      rintro rfl
      simp [h.bound] at hfree
    exact .outer ((h.find_of_ne hne).trans hfree) ((h.parent i).trans hparent) (ih he)

/-- Where the old alias stood for the renamed symbol, it stands for what is further out. -/
theorem seesTable_source {ids : List Nat} {stop : Option Nat} (hpath : s.Path i ids stop)
    (hnearest : s.Nearest source i d) :
    s'.SeesTable source i ↔ ∃ p, s.parentOf d = some p ∧ s.SeesTable source p := by
  induction hnearest generalizing ids with
  | @here i _ hfind =>
    rw [seesTable_of_free h.find_source, h.parent]
    refine exists_congr fun p => and_congr_right fun hparent => ?_
    obtain ⟨rest, rfl, hrest⟩ := hpath.parent hparent
    have hne {j : Nat} (hj : j ∈ rest) : j ≠ i := by
      rintro rfl
      exact (List.nodup_cons.1 hpath.nodup).1 hj
    refine exists_congr fun e => exists_congr fun t => ?_
    rw [hrest.nearest_congr (h.path hrest) fun j hj => h.find_of_ne (hne hj)]
    exact and_congr_right fun hn => by rw [h.find_of_ne (hne (hrest.mem_of_nearest hn))]
  | @outer i j d hfree hparent _ ih =>
    have hne : i ≠ d := by
      rintro rfl
      simp [h.bound] at hfree
    obtain ⟨rest, rfl, hrest⟩ := hpath.parent hparent
    rw [seesTable_of_free ((h.find_of_ne hne).trans hfree), h.parent, hparent]
    simp only [Option.some.injEq, exists_eq_left']
    exact ih h hrest

/-- An alias other than the old one stands for a table as before. -/
theorem seesTable {ids : List Nat} {stop : Option Nat} (hpath : s.Path i ids stop)
    (hsees : s.SeesTable a i) (ha : ¬(a = source ∧ s.Nearest source i d)) : s'.SeesTable a i := by
  obtain ⟨e, t, hnearest, hfind⟩ := hsees
  by_cases hs : a = source
  · subst hs
    have he : e ≠ d := fun he => ha ⟨rfl, he ▸ hnearest⟩
    exact ⟨e, t, h.nearest_source hnearest he, (h.find_of_ne he).trans hfind⟩
  · by_cases ht : a = target
    · subst ht
      obtain ⟨hnearest', he⟩ := h.nearest_target hnearest
      exact ⟨e, t, hnearest', (h.find_of_ne he).trans hfind⟩
    · have hother (j : Nat) : s'.findIn? a j = s.findIn? a j := h.find_other hs ht
      exact ⟨e, t, (hpath.nearest_congr (h.path hpath) fun j _ => hother j).2 hnearest,
        (hother e).trans hfind⟩

/-- Each table is still bound in its scope, and lists the same tables. -/
theorem table_forth {t : TableSymbol} (hfind : s.findIn? k i = some (.table t)) :
    ∃ k' t', s'.findIn? k' i = some (.table t') ∧ t'.isCompound = t.isCompound ∧
      t'.compoundTables = t.compoundTables := by
  by_cases hmoved : i = d ∧ k = source
  · obtain ⟨rfl, rfl⟩ := hmoved
    obtain rfl := Option.some.inj (h.bound.symm.trans hfind)
    exact ⟨target, { t with aliasName := target }, h.find_target, rfl, rfl⟩
  · refine ⟨k, t, ?_, rfl, rfl⟩
    by_cases hi : i = d
    · subst hi
      have hs : k ≠ source := fun hk => hmoved ⟨rfl, hk⟩
      have ht : k ≠ target := by
        rintro rfl
        exact h.unseen ⟨i, .here hfind⟩
      rw [h.find_other hs ht, hfind]
    · rw [h.find_of_ne hi, hfind]

/-- Each table was bound before, if it is not the renamed one. -/
theorem table_back {t' : TableSymbol} (hfind : s'.findIn? k i = some (.table t')) :
    (∃ t, i = d ∧ symbol = .table t ∧ t' = { t with aliasName := target }) ∨
      s.findIn? k i = some (.table t') := by
  by_cases hi : i = d
  · subst hi
    by_cases hs : k = source
    · subst hs
      simp [h.find_source] at hfind
    · by_cases ht : k = target
      · subst ht
        have hsymbol := Option.some.inj (h.find_target.symm.trans hfind)
        cases symbol with
        | table t => exact .inl ⟨t, rfl, rfl, (Symbol.table.inj hsymbol).symm⟩
        | refresh calls => cases hsymbol
      · exact .inr ((h.find_other hs ht).symm.trans hfind)
  · exact .inr ((h.find_of_ne hi).symm.trans hfind)

theorem not_plain (hd : s.Described) (hd' : s'.Described) {t : TableSymbol}
    (hsymbol : symbol = .table t) : t.isCompound = true := by
  subst hsymbol
  by_contra hplain
  rw [Bool.not_eq_true] at hplain
  have hold := (hd.plain h.bound hplain).2
  have hnew : t.compoundTables = [target] := (hd'.plain h.find_target hplain).2
  exact h.source_ne_target (List.cons.inj (hold.symm.trans hnew)).1

/-- The description stays exactly when no plain table was renamed, and every compound that listed
    the renamed symbol finds another table of the old alias further out. -/
theorem described_iff (hd : s.Described) : s'.Described ↔
    (∀ t, symbol = .table t → t.isCompound = true) ∧
    ∀ k i t, s.findIn? k i = some (.table t) → t.isCompound = true → source ∈ t.compoundTables →
      s.Nearest source i d → ∃ p, s.parentOf d = some p ∧ s.SeesTable source p := by
  constructor
  · refine fun hd' => ⟨fun t ht => h.not_plain hd hd' ht, fun k i t hfind hcompound ha hn => ?_⟩
    obtain ⟨⟨ids, hpath⟩, -⟩ := resolve_table_iff.1 (hd.compound hfind hcompound source ha)
    obtain ⟨k', t', hfind', hcompound', htables⟩ := h.table_forth hfind
    have hresolve := hd'.compound hfind' (hcompound'.trans hcompound) source (htables ▸ ha)
    exact (h.seesTable_source hpath hn).1 (resolve_table_iff.1 hresolve).2
  · rintro ⟨hmoved, hlisted⟩
    refine ⟨fun {k i t'} hfind hplain => ?_, fun {k i t'} hfind hcompound a ha => ?_⟩
    · rcases h.table_back hfind with ⟨t, -, hsymbol, rfl⟩ | hold
      · exact absurd (hmoved t hsymbol) (by simpa [TableSymbol.isCompound] using hplain)
      · exact hd.plain hold hplain
    · -- the compound listed the same aliases before, in the same scope
      obtain ⟨k₀, t, hold, hcompound₀, ha₀⟩ : ∃ k₀ t, s.findIn? k₀ i = some (.table t) ∧
          t.isCompound = true ∧ a ∈ t.compoundTables := by
        rcases h.table_back hfind with ⟨t, rfl, rfl, rfl⟩ | hold
        · exact ⟨source, t, h.bound, hcompound, ha⟩
        · exact ⟨k, t', hold, hcompound, ha⟩
      obtain ⟨⟨ids, hpath⟩, hsees⟩ := resolve_table_iff.1 (hd.compound hold hcompound₀ a ha₀)
      refine resolve_table_iff.2 ⟨⟨ids, h.path hpath⟩, ?_⟩
      by_cases hsource : a = source ∧ s.Nearest source i d
      · obtain ⟨rfl, hn⟩ := hsource
        exact (h.seesTable_source hpath hn).2 (hlisted k₀ i t hold hcompound₀ ha₀ hn)
      · exact h.seesTable hpath hsees hsource

end Renamed

/-! ## Moves -/

/-- After every sequence of operations that leaves the symbols described, giving a symbol another
    alias keeps them described exactly when the symbol is no plain table and every compound that
    lists it finds another table of the old alias further out. -/
theorem move_described_iff (ops : List ScopeOperation) {id : Nat} {source target : String}
    {s' : Scopes} :
    let s := Scopes.empty.afterAll ops
    s.Described → s.move id source target = .ok s' →
    ∃ d symbol, s.Nearest source id d ∧ s.findIn? source d = some symbol ∧
      s'.findIn? target d = some (renamed target symbol) ∧
      (s'.Described ↔ (∀ t, symbol = .table t → t.isCompound = true) ∧
        ∀ k i t, s.findIn? k i = some (.table t) → t.isCompound = true →
          source ∈ t.compoundTables → s.Nearest source i d →
          ∃ p, s.parentOf d = some p ∧ s.SeesTable source p) := by
  intro s hd hmove
  obtain ⟨d, symbol, hnearest, h⟩ := renamed_of_move (Sound.empty.afterAll ops) hmove
  exact ⟨d, symbol, hnearest, h.bound, h.find_target, h.described_iff hd⟩

/-- Two tables and the compound of them: the compound can be renamed, but a table cannot. -/
theorem move_described_iff_joinedTables :
    let table (a : String) : Symbol := .table (.plain a .subquery [] true .object)
    let s := Scopes.empty.afterAll [.enter .query "Query", .add 0 "a" (table "a"),
      .add 0 "b" (table "b"), .add 0 "a+b" (.table (.compound "a+b" ["a", "b"]))]
    s.Described ∧ (∃ s', s.move 0 "a+b" "c" = .ok s' ∧ s'.Described) ∧
      ∃ s', s.move 0 "a" "c" = .ok s' ∧ ¬ s'.Described := by
  intro table s
  have hentry {k : String} {i : Nat} {symbol : Symbol} (h : s.findIn? k i = some symbol) :
      i = 0 ∧ (k ≠ "a+b" ∧ symbol = table k ∨ symbol = .table (.compound "a+b" ["a", "b"])) := by
    obtain ⟨sc, hsc, hmem⟩ := mem_symbols_of_findIn? h
    have hall : s.all = [⟨0, none, .query, "Query", [], [("a", table "a"), ("b", table "b"),
      ("a+b", .table (.compound "a+b" ["a", "b"]))]⟩] := rfl
    rw [hall] at hsc
    cases i with
    | succ i => cases hsc
    | zero =>
      cases hsc
      simp only [List.mem_cons, Prod.mk.injEq, List.not_mem_nil, or_false] at hmem
      rcases hmem with ⟨rfl, ht⟩ | ⟨rfl, ht⟩ | ⟨-, ht⟩
      · exact ⟨rfl, .inl ⟨by decide, ht⟩⟩
      · exact ⟨rfl, .inl ⟨by decide, ht⟩⟩
      · exact ⟨rfl, .inr ht⟩
  have hd : s.Described := by
    refine ⟨fun h hplain => ?_, fun h hcompound a ha => ?_⟩
    · obtain ⟨-, ⟨-, ht⟩ | ht⟩ := hentry h
      · cases ht
        exact ⟨rfl, rfl⟩
      · cases ht
        cases hplain
    · obtain ⟨rfl, ⟨-, ht⟩ | ht⟩ := hentry h
      · cases ht
        cases hcompound
      · cases ht
        obtain rfl | rfl : a = "a" ∨ a = "b" := by simpa [TableSymbol.compound] using ha
        · exact ⟨_, rfl⟩
        · exact ⟨_, rfl⟩
  refine ⟨hd, ?_, ?_⟩
  · obtain ⟨d, symbol, -, hbound, -, hiff⟩ := move_described_iff _ hd
      (rfl : s.move 0 "a+b" "c" = .ok _)
    refine ⟨_, rfl, hiff.2 ⟨?_, ?_⟩⟩
    · rintro t rfl
      obtain ⟨-, ⟨hk, -⟩ | ht⟩ := hentry hbound
      · exact absurd rfl hk
      · cases ht
        rfl
    · intro k i t hfind hcompound ha
      obtain ⟨-, ⟨-, ht⟩ | ht⟩ := hentry hfind
      · cases ht
        cases hcompound
      · cases ht
        simp [TableSymbol.compound] at ha
  · obtain ⟨d, symbol, -, hbound, -, hiff⟩ := move_described_iff _ hd
      (rfl : s.move 0 "a" "c" = .ok _)
    refine ⟨_, rfl, fun hd' => ?_⟩
    obtain ⟨rfl, -⟩ := hentry hbound
    cases hbound
    cases (hiff.1 hd').1 _ rfl

end Scopes

end SchemaQuery
