-- SUMMARY: What binding, replacing and renaming do to any scopes, and what they ask for.
import SchemaQuery.Proofs.Scope.Nearest
import SchemaQuery.Proofs.Scope.Tables

/-!
# Changes of scopes

A change of a binding succeeds exactly when the walk from the scope comes to a root
and the names are bound or free on the way as the change asks. The scopes need not be
in order for that. No change binds an alias twice in one scope.
-/

namespace SchemaQuery

/-! ## One scope -/

namespace Scope

variable {symbols : List (String × Symbol)} {a b : String} {symbol : Symbol}

theorem find?_eq_none_iff {sc : Scope} : sc.find? a = none ↔ a ∉ sc.aliases := by
  rw [find?, Option.map_eq_none_iff, List.find?_eq_none]
  simp only [decide_eq_true_eq, aliases, List.mem_map, not_exists, not_and]

theorem replaceEntry_nodup (hnodup : (symbols.map (·.1)).Nodup)
    (hb : b = a ∨ b ∉ symbols.map (·.1)) :
    ((replaceEntry a (b, symbol) symbols).map (·.1)).Nodup := by
  induction symbols with
  | nil => exact hnodup
  | cons e rest ih =>
    obtain ⟨hhead, htail⟩ := List.nodup_cons.1 hnodup
    have hb' : b = a ∨ b ∉ rest.map (·.1) :=
      hb.imp_right fun h hmem => h (List.mem_cons_of_mem _ hmem)
    rw [replaceEntry]
    split
    · rename_i he
      refine List.nodup_cons.2 ⟨?_, htail⟩
      rcases hb' with rfl | hb'
      · exact he ▸ hhead
      · exact hb'
    · rename_i he
      refine List.nodup_cons.2 ⟨fun hmem => ?_, ih htail hb'⟩
      obtain ⟨entry, hentry, hfst⟩ := List.mem_map.1 hmem
      rcases mem_replaceEntry hentry with hentry | rfl
      · exact hhead (hfst ▸ List.mem_map_of_mem hentry)
      · obtain rfl : b = e.1 := hfst
        rcases hb with hb | hb
        · exact he hb
        · exact hb (List.mem_cons_self ..)

end Scope

/-! ## Changes -/

namespace Scopes

variable {s s' : Scopes} {id i d : Nat} {a source target : String} {symbol : Symbol}

theorem not_mem_aliases {sc : Scope} (hsc : s.all[i]? = some sc) (h : s.findIn? a i = none) :
    a ∉ sc.aliases := by
  rw [findIn?, hsc, Option.bind_some] at h
  exact Scope.find?_eq_none_iff.1 h

theorem Path.mem_of_nearest {ids : List Nat} {stop : Option Nat} (h : s.Path i ids stop)
    (hnearest : s.Nearest a i d) : d ∈ ids :=
  List.mem_of_find?_eq_some (h.nearest_iff.2 hnearest)

theorem leave_eq_ok_iff : s.leave = .ok s' ↔
    ∃ c, s.current = some c ∧ c < s.all.length ∧ { s with current := s.parentOf c } = s' := by
  rw [leave_eq]
  cases hcurrent : s.current with
  | none => simp [currentOr, hcurrent, bind, Except.bind]
  | some c =>
    by_cases hc : c < s.all.length
    · simp [currentOr, hcurrent, scope_eq_ok hc, parentOf_eq hc, hc, bind, Except.bind, pure,
        Except.pure]
    · simp [currentOr, hcurrent, scope_eq_error (Nat.le_of_not_lt hc), hc, bind, Except.bind]

theorem lookup_eq_ok_iff {found : Option Symbol} : s.lookup a id = .ok found ↔
    ∃ ids, s.Path id ids none ∧ ids.findSome? (s.findIn? a) = found := by
  rw [lookup, except_bind_ok]
  exact exists_congr fun ids => and_congr chain_eq_ok_iff except_pure_ok

theorem lookup_eq_none_iff : s.lookup a id = .ok none ↔
    ∃ ids, s.Path id ids none ∧ ∀ i ∈ ids, s.findIn? a i = none := by
  simp only [lookup_eq_ok_iff, List.findSome?_eq_none_iff]

/-- A name is bound where no scope on the path binds it. -/
theorem add_eq_ok_iff : s.add id a symbol = .ok s' ↔
    ∃ ids, s.Path id ids none ∧ (∀ i ∈ ids, s.findIn? a i = none) ∧
      s.mapSymbols id (· ++ [(a, symbol)]) = s' := by
  rw [add_eq, except_bind_ok]
  constructor
  · rintro ⟨found, hlookup, h⟩
    cases found with
    | some old => cases h
    | none =>
      obtain ⟨ids, hpath, hfree⟩ := lookup_eq_none_iff.1 hlookup
      exact ⟨ids, hpath, hfree, except_pure_ok.1 h⟩
  · rintro ⟨ids, hpath, hfree, rfl⟩
    exact ⟨none, lookup_eq_none_iff.2 ⟨ids, hpath, hfree⟩, rfl⟩

/-- The symbol of a name is replaced in the nearest scope that binds it. -/
theorem update_eq_ok_iff : s.update a id symbol = .ok s' ↔
    ∃ ids d, s.Path id ids none ∧ s.Nearest a id d ∧
      s.mapSymbols d (Scope.replaceEntry a (a, symbol)) = s' := by
  rw [update_eq, except_bind_ok]
  constructor
  · rintro ⟨ids, hchain, h⟩
    have hpath := chain_eq_ok_iff.1 hchain
    cases hscope : s.bindingScope? a ids with
    | none =>
      rw [hscope] at h
      cases h
    | some d =>
      rw [hscope] at h
      exact ⟨ids, d, hpath, hpath.nearest_iff.1 hscope, except_pure_ok.1 h⟩
  · rintro ⟨ids, d, hpath, hnearest, rfl⟩
    refine ⟨ids, chain_eq_ok_iff.2 hpath, ?_⟩
    rw [hpath.nearest_iff.2 hnearest]
    rfl

/-- A name that no scope on the path binds takes the place of another one, in the nearest scope that
    binds that. -/
theorem move_eq_ok_iff : s.move id source target = .ok s' ↔
    ∃ ids d symbol, s.Path id ids none ∧ (∀ i ∈ ids, s.findIn? target i = none) ∧
      s.Nearest source id d ∧ s.findIn? source d = some symbol ∧
      s.mapSymbols d (Scope.replaceEntry source (target, renamed target symbol)) = s' := by
  rw [move_eq, except_bind_ok]
  constructor
  · rintro ⟨found, hlookup, h⟩
    cases found with
    | some old => cases h
    | none =>
      obtain ⟨ids, hpath, hfree⟩ := lookup_eq_none_iff.1 hlookup
      obtain ⟨ids', hchain, h⟩ := except_bind_ok.1 h
      obtain ⟨rfl, -⟩ := hpath.unique (chain_eq_ok_iff.1 hchain)
      rw [findSome?_findIn?] at h
      cases hscope : s.bindingScope? source ids with
      | none =>
        rw [hscope] at h
        cases h
      | some d =>
        have hnearest := hpath.nearest_iff.1 hscope
        obtain ⟨symbol, hfind⟩ := hnearest.bound
        rw [hscope, Option.bind_some, hfind] at h
        exact ⟨ids, d, symbol, hpath, hfree, hnearest, hfind, except_pure_ok.1 h⟩
  · rintro ⟨ids, d, symbol, hpath, hfree, hnearest, hfind, rfl⟩
    refine ⟨none, lookup_eq_none_iff.2 ⟨ids, hpath, hfree⟩,
      except_bind_ok.2 ⟨ids, chain_eq_ok_iff.2 hpath, ?_⟩⟩
    rw [findSome?_findIn?, hpath.nearest_iff.2 hnearest, Option.bind_some, hfind]
    rfl

end Scopes

end SchemaQuery
