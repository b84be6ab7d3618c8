-- SUMMARY: Steps on scopes: a step that fails has written nothing, and what each step results in.
import SchemaQuery.Proofs.Run
import SchemaQuery.Proofs.Scope.Walks

/-!
# Steps on scopes

A step checks and writes one thing after the other, and what it has written stays
where a later check fails. In every step on scopes the checks come first
(`ChecksFirst`): behind the first write there are only steps that succeed.

The results of the steps are given as computations on the scopes that they start
from, with one change at the end.
-/

namespace SchemaQuery

/-! ## Entries -/

namespace Scope

variable {a : String} {symbols : List (String × Symbol)}

/-- Replaces the first entry of an alias. -/
def replaceEntry (aliasName : String) (entry : String × Symbol) :
    List (String × Symbol) → List (String × Symbol)
  | [] => []
  | e :: rest => if e.1 = aliasName then entry :: rest else e :: replaceEntry aliasName entry rest

theorem place?_isSome (sc : Scope) (a : String) : (sc.place? a).isSome = sc.binds a := by
  rw [place?, List.findIdx?_isSome, binds, find?, Option.isSome_map, Bool.eq_iff_iff,
    List.any_eq_true, List.find?_isSome]

/-- A change at the place of an alias replaces its entry. -/
theorem modify_place {place : Nat} {symbol : Symbol} (f : String × Symbol → String × Symbol)
    (hplace : symbols.findIdx? (·.1 = a) = some place)
    (hsymbol : (symbols.find? (·.1 = a)).map (·.2) = some symbol) :
    symbols.modify place f = replaceEntry a (f (a, symbol)) symbols := by
  induction symbols generalizing place with
  | nil => cases hplace
  | cons e rest ih =>
    by_cases he : e.1 = a
    · obtain rfl : 0 = place := by simpa [List.findIdx?_cons, he] using hplace
      obtain rfl : e.2 = symbol := by simpa [he] using hsymbol
      rw [replaceEntry, if_pos he, ← he]
      rfl
    · rw [List.findIdx?_cons] at hplace
      simp only [he, decide_false, Bool.false_eq_true, if_false, Option.map_eq_some_iff] at hplace
      obtain ⟨place, hrest, rfl⟩ := hplace
      rw [replaceEntry, if_neg he, List.modify_succ_cons, ih hrest (by simpa [he] using hsymbol)]

end Scope

namespace ScopeStep

variable {α β : Type} {s s' : Scopes} {f : Scopes → Except ResolveError α}

/-! ## Checks before writes -/

/-- A step that fails has written nothing. -/
def ChecksFirst (step : ScopeStep α) : Prop :=
  ∀ (s : Scopes) (e : ResolveError) (s' : Scopes), step s = .error e s' → s' = s

/-- A step that does not fail. -/
def Succeeds (step : ScopeStep α) : Prop := ∀ s : Scopes, ∃ a s', step s = .ok a s'

theorem Succeeds.checksFirst {step : ScopeStep α} (h : Succeeds step) : ChecksFirst step := by
  intro s e s' hrun
  obtain ⟨a, t, hok⟩ := h s
  cases hok.symm.trans hrun

theorem succeeds_pure (a : α) : Succeeds (pure a) := fun s => ⟨a, s, rfl⟩

theorem succeeds_write (f : Scopes → Scopes) : Succeeds (write f) := fun s => ⟨(), f s, rfl⟩

theorem succeeds_get : Succeeds (get : ScopeStep Scopes) := fun s => ⟨s, s, rfl⟩

theorem Succeeds.bind {step : ScopeStep α} {next : α → ScopeStep β} (h : Succeeds step)
    (hnext : ∀ a, Succeeds (next a)) : Succeeds (step >>= next) := by
  intro s
  obtain ⟨a, t, hok⟩ := h s
  obtain ⟨b, u, hok'⟩ := hnext a t
  exact ⟨b, u, (run_bind_of_ok hok).trans hok'⟩

theorem checksFirst_throw (e : ResolveError) : ChecksFirst (throw e : ScopeStep α) := by
  intro s e' s' h
  cases h
  rfl

theorem read_of_ok {a : α} (h : f s = .ok a) : read f s = .ok a s := by
  unfold read
  rw [run_bind_of_ok (run_get_ok.2 ⟨rfl, rfl⟩), h]
  rfl

theorem read_of_error {e : ResolveError} (h : f s = .error e) : read f s = .error e s := by
  unfold read
  rw [run_bind_of_ok (run_get_ok.2 ⟨rfl, rfl⟩), h]
  rfl

/-- What comes after a reading may check on. -/
theorem ChecksFirst.after_read {next : α → ScopeStep β} (h : ∀ a, ChecksFirst (next a)) :
    ChecksFirst (read f >>= next) := by
  intro s e s' hrun
  cases hf : f s with
  | ok a =>
    rw [run_bind_of_ok (read_of_ok hf)] at hrun
    exact h a s e s' hrun
  | error e' =>
    rw [run_bind_of_error (read_of_error hf)] at hrun
    cases hrun
    rfl

/-- What comes after a write must succeed. -/
theorem ChecksFirst.bind {step : ScopeStep α} {next : α → ScopeStep β} (h : ChecksFirst step)
    (hnext : ∀ a, Succeeds (next a)) : ChecksFirst (step >>= next) := by
  intro s e s' hrun
  cases hstep : step s with
  | ok a t =>
    rw [run_bind_of_ok hstep] at hrun
    exact absurd hrun (by obtain ⟨b, u, hok⟩ := hnext a t; simp [hok])
  | error e' t =>
    rw [run_bind_of_error hstep] at hrun
    cases hrun
    exact h s e s' hstep

/-! ### The steps -/

theorem create_succeeds (kind : ScopeKind) (name : String) (parent : Option Nat) :
    Succeeds (create kind name parent) :=
  succeeds_get.bind fun _ => (succeeds_write _).bind fun _ => succeeds_pure _

theorem enter_succeeds (kind : ScopeKind) (name : String) : Succeeds (enter kind name) :=
  succeeds_get.bind fun s => (create_succeeds kind name s.current).bind fun _ =>
    (succeeds_write _).bind fun _ => succeeds_pure _

theorem leave_checksFirst : ChecksFirst leave :=
  .after_read fun _ => .after_read fun _ => Succeeds.checksFirst <|
    (succeeds_write _).bind fun _ => succeeds_get.bind fun _ => succeeds_pure _

theorem writeScope_checksFirst (id : Nat) (f : Scope → Scope) : ChecksFirst (writeScope id f) :=
  .after_read fun _ => (succeeds_write _).checksFirst

theorem add_checksFirst (id : Nat) (a : String) (symbol : Symbol) :
    ChecksFirst (add id a symbol) := by
  refine .after_read fun found => ?_
  cases found with
  | some old => exact checksFirst_throw _
  | none => exact writeScope_checksFirst id _

/-- The search for an entry writes nothing, so the work on the entry comes first. -/
theorem onEntry_checksFirst {a : String} {work : Nat → Nat → ScopeStep Unit}
    (hwork : ∀ i place, Succeeds (work i place)) (ids : List Nat) :
    ChecksFirst (onEntry a work ids) := by
  induction ids with
  | nil => exact checksFirst_throw _
  | cons id ids ih =>
    refine .after_read fun sc => ?_
    split
    · exact (hwork _ _).checksFirst
    · exact ih

theorem update_checksFirst (a : String) (id : Nat) (symbol : Symbol) :
    ChecksFirst (update a id symbol) :=
  .after_read fun ids => onEntry_checksFirst (fun _ _ => succeeds_write _) ids

theorem modify_checksFirst (view : SymbolView α) (a : String) (id : Nat) (f : α → α) :
    ChecksFirst (modify view a id f) :=
  .after_read fun _ => update_checksFirst a id _

theorem move_checksFirst (id : Nat) (source target : String) :
    ChecksFirst (move id source target) := by
  refine .after_read fun found => ?_
  cases found with
  | some old => exact checksFirst_throw _
  | none =>
    refine .after_read fun ids => onEntry_checksFirst (fun _ _ => ?_) ids
    exact (succeeds_write _).bind fun _ => succeeds_write _

theorem setAttribute_checksFirst (id : Nat) (key value : String) :
    ChecksFirst (setAttribute id key value) :=
  writeScope_checksFirst id _

/-! ## Results -/

theorem result_eq_ok_iff {step : ScopeStep α} :
    step.result s = .ok s' ↔ ∃ a, step s = .ok a s' := by
  unfold result
  cases step s with
  | ok a t => simp
  | error e t => simp

theorem result_after_read {next : α → ScopeStep β} :
    (read f >>= next).result s = (f s >>= fun a => (next a).result s) := by
  cases hf : f s with
  | ok a => rw [result, run_bind_of_ok (read_of_ok hf)]; rfl
  | error e => rw [result, run_bind_of_error (read_of_error hf)]; rfl

theorem result_writeScope (id : Nat) (f : Scope → Scope) :
    (writeScope id f).result s =
      (s.scope id).map fun _ => { s with all := s.all.modify id f } := by
  rw [writeScope, result_after_read]
  cases s.scope id <;> rfl

end ScopeStep

namespace Scopes

variable {s : Scopes}

/-- The nearest scope that binds an alias. -/
def bindingScope? (s : Scopes) (aliasName : String) (ids : List Nat) : Option Nat :=
  ids.find? fun i => (s.findIn? aliasName i).isSome

/-- What a walk finds is bound in the nearest scope that binds the alias. -/
theorem findSome?_findIn? (k : String) (ids : List Nat) :
    ids.findSome? (s.findIn? k) = (s.bindingScope? k ids).bind (s.findIn? k) := by
  induction ids with
  | nil => rfl
  | cons i ids ih =>
    cases hfind : s.findIn? k i with
    | none => simpa [bindingScope?, hfind] using ih
    | some symbol => simp [bindingScope?, hfind]

theorem mapSymbols_mapSymbols (s : Scopes) (i : Nat)
    (f g : List (String × Symbol) → List (String × Symbol)) :
    (s.mapSymbols i f).mapSymbols i g = s.mapSymbols i (g ∘ f) := by
  simp only [mapSymbols, List.modify_modify_eq]
  rfl

/-- The work on an entry is done in the nearest scope that binds the alias. -/
theorem result_onEntry {a : String} {work : Nat → Nat → ScopeStep Unit}
    {f : String × Symbol → String × Symbol} {ids : List Nat}
    (hwork : ∀ i place, (work i place).result s = .ok (s.mapSymbols i (·.modify place f)))
    (hids : ∀ i ∈ ids, i < s.all.length) :
    (ScopeStep.onEntry a work ids).result s =
      match s.bindingScope? a ids, ids.findSome? (s.findIn? a) with
      | some i, some symbol => .ok (s.mapSymbols i (Scope.replaceEntry a (f (a, symbol))))
      | _, _ => .error (unbound a) := by
  induction ids with
  | nil => rfl
  | cons id ids ih =>
    have hid := hids id (List.mem_cons_self ..)
    have hfind : s.findIn? a id = s.all[id].find? a := by
      simp [findIn?, List.getElem?_eq_getElem hid]
    rw [ScopeStep.onEntry, ScopeStep.result_after_read, scope_eq_ok hid]
    simp only [bind, Except.bind]
    have hsame := s.all[id].place?_isSome a
    cases hplace : s.all[id].place? a with
    | none =>
      have hnone : s.findIn? a id = none := by simpa [hplace, Scope.binds, hfind] using hsame
      simpa [bindingScope?, hnone] using ih fun i hi => hids i (List.mem_cons_of_mem _ hi)
    | some place =>
      rw [hplace] at hsame
      obtain ⟨symbol, hsymbol⟩ := Option.isSome_iff_exists.1 hsame.symm
      have hentry := Scope.modify_place f hplace hsymbol
      simp only [hwork, bindingScope?, List.find?_cons, List.findSome?_cons, hfind, hsymbol,
        Option.isSome_some, mapSymbols, Except.ok.injEq, Scopes.mk.injEq, and_true]
      refine List.ext_getElem? fun j => ?_
      by_cases hj : id = j
      · subst hj
        simp [List.getElem?_eq_getElem hid, hentry]
      · simp [hj]

/-! ### The steps -/

theorem leave_eq (s : Scopes) : s.leave = (do
    let sc ← s.scope (← s.currentOr "no scope to leave")
    return { s with current := sc.parent }) := by
  rw [leave, ScopeStep.leave, ScopeStep.result_after_read]
  refine bind_congr fun id => ?_
  rw [ScopeStep.result_after_read]
  rfl

theorem add_eq (s : Scopes) (id : Nat) (a : String) (symbol : Symbol) : s.add id a symbol = (do
    match ← s.lookup a id with
    | some _ => throw (.aliasAlreadyUsed a)
    | none => return s.mapSymbols id (· ++ [(a, symbol)])) := by
  rw [add, ScopeStep.add, ScopeStep.result_after_read]
  cases hlookup : s.lookup a id with
  | error e => rfl
  | ok found =>
    cases found with
    | some old => rfl
    | none =>
      -- a lookup with an answer has started at a scope that exists
      obtain ⟨ids, hchain, -⟩ := except_bind_ok.1 hlookup
      have hid := (chain_eq_ok_iff.1 hchain).start_lt
      change (ScopeStep.writeScope id _).result s = _
      rw [ScopeStep.result_writeScope, scope_eq_ok hid]
      rfl

theorem update_eq (s : Scopes) (a : String) (id : Nat) (symbol : Symbol) :
    s.update a id symbol = (do
      match s.bindingScope? a (← s.chain id) with
      | some i => return s.mapSymbols i (Scope.replaceEntry a (a, symbol))
      | none => throw (unbound a)) := by
  rw [update, ScopeStep.update, ScopeStep.result_after_read]
  cases hchain : s.chain id with
  | error e => rfl
  | ok ids =>
    change (ScopeStep.onEntry a _ ids).result s = _
    rw [result_onEntry (fun _ _ => rfl) (chain_eq_ok_iff.1 hchain).lt_length]
    change _ = match s.bindingScope? a ids with
      | some i => Except.ok (s.mapSymbols i (Scope.replaceEntry a (a, symbol)))
      | none => .error (unbound a)
    rw [findSome?_findIn?]
    cases hscope : s.bindingScope? a ids with
    | none => rfl
    | some i =>
      have hbound : (s.findIn? a i).isSome :=
        List.find?_some (p := fun i => (s.findIn? a i).isSome) hscope
      obtain ⟨old, hold⟩ := Option.isSome_iff_exists.1 hbound
      rw [Option.bind_some, hold]

theorem modify_eq {α : Type} (s : Scopes) (view : SymbolView α) (a : String) (id : Nat)
    (f : α → α) : s.modify view a id f = (do
      let x ← s.resolve view a id
      s.update a id (view.put (f x))) :=
  ScopeStep.result_after_read

theorem move_eq (s : Scopes) (id : Nat) (source target : String) : s.move id source target = (do
    match ← s.lookup target id with
    | some _ => throw (.aliasAlreadyUsed target)
    | none =>
      let ids ← s.chain id
      match s.bindingScope? source ids, ids.findSome? (s.findIn? source) with
      | some i, some symbol =>
        return s.mapSymbols i (Scope.replaceEntry source (target, renamed target symbol))
      | _, _ => throw (unbound source)) := by
  rw [move, ScopeStep.move, ScopeStep.result_after_read]
  refine bind_congr fun found => ?_
  cases found with
  | some old => rfl
  | none =>
    change (ScopeStep.read _ >>= _).result s = _
    rw [ScopeStep.result_after_read]
    cases hchain : s.chain id with
    | error e => rfl
    | ok ids =>
      have hwork (i place : Nat) : ((do
          ScopeStep.writeEntry i place fun e => (target, e.2)
          ScopeStep.writeEntry i place fun e => (e.1, renamed target e.2) :
            ScopeStep Unit)).result s =
          .ok (s.mapSymbols i (·.modify place fun e => (target, renamed target e.2))) := by
        change Except.ok ((s.mapSymbols i _).mapSymbols i _) = _
        rw [mapSymbols_mapSymbols]
        congr 2
        funext symbols
        exact List.modify_modify_eq ..
      change (ScopeStep.onEntry source _ ids).result s = _
      rw [result_onEntry hwork (chain_eq_ok_iff.1 hchain).lt_length]
      rfl

theorem setAttribute_eq (s : Scopes) (id : Nat) (key value : String) :
    s.setAttribute id key value = (do
      let _ ← s.scope id
      return { s with all := s.all.modify id fun sc =>
        { sc with attributes := sc.attributes.insert key value } }) := by
  rw [setAttribute, ScopeStep.setAttribute, ScopeStep.result_writeScope]
  cases s.scope id <;> rfl

end Scopes

end SchemaQuery
