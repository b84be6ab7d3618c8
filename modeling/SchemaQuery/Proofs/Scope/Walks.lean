-- SUMMARY: The walk from a scope outward: where it passes, how it stops, and when it never does.
import Mathlib.Data.List.Nodup
import Mathlib.Data.List.Perm.Subperm
import Mathlib.Logic.Relation
import SchemaQuery.Scope.Basic

/-!
# Walks

A lookup walks from a scope to its parent and so on. `Path` says which scopes such
a walk passes and where it stops, by the parents of scopes alone. A path passes no
scope twice, so the walk with a bound finds its end, and it finds the same end as
the walk without one (`walk_eq_walkOn`). Where there is no path the walk comes back
to a scope that it has passed (`walkOn_eq_none_iff`).
-/

namespace SchemaQuery.Scopes

variable {s s' : Scopes} {i j p : Nat} {ids : List Nat} {stop : Option Nat}

/-! ## Parents -/

/-- The scope around a scope. -/
def parentOf (s : Scopes) (id : Nat) : Option Nat := s.all[id]?.bind (·.parent)

/-- Every scope was opened after the one around it. -/
def Ordered (s : Scopes) : Prop := ∀ i p, s.parentOf i = some p → p < i

/-- A scope lies below another one if the walk outward from it comes there. -/
def Below (s : Scopes) : Nat → Nat → Prop := Relation.TransGen fun i p => s.parentOf i = some p

theorem lt_length_of_parentOf (h : s.parentOf i = some p) : i < s.all.length := by
  by_contra hlt
  simp [parentOf, List.getElem?_eq_none (Nat.le_of_not_lt hlt)] at h

theorem scope_eq_ok (h : i < s.all.length) : s.scope i = .ok s.all[i] := by
  simp [scope, List.getElem?_eq_getElem h]

theorem scope_eq_error (h : s.all.length ≤ i) : s.scope i = .error (unknownScope i) := by
  simp [scope, List.getElem?_eq_none h]

theorem parentOf_eq (h : i < s.all.length) : s.parentOf i = s.all[i].parent := by
  simp [parentOf, List.getElem?_eq_getElem h]

theorem parentOf_of_append {last : Scope} (hall : s'.all = s.all ++ [last]) (i : Nat) :
    s'.parentOf i = if i = s.all.length then last.parent else s.parentOf i := by
  rcases Nat.lt_trichotomy i s.all.length with hi | rfl | hi
  · rw [parentOf, hall, List.getElem?_append_left hi, if_neg (Nat.ne_of_lt hi), parentOf]
  · simp [parentOf, hall]
  · rw [parentOf, hall, List.getElem?_eq_none (by simp; omega), if_neg (Nat.ne_of_gt hi), parentOf,
      List.getElem?_eq_none (Nat.le_of_lt hi)]

/-! ## Paths -/

/-- The walk outward from a scope passes the scopes `ids`. It stops behind a scope without a parent,
    or at a number that no scope has. -/
inductive Path (s : Scopes) : Nat → List Nat → Option Nat → Prop where
  | unknown {i : Nat} (h : s.all.length ≤ i) : Path s i [] (some i)
  | root {i : Nat} (hi : i < s.all.length) (hparent : s.parentOf i = none) : Path s i [i] none
  | outer {i p : Nat} {ids : List Nat} {stop : Option Nat} (hparent : s.parentOf i = some p)
      (h : Path s p ids stop) : Path s i (i :: ids) stop

/-- What a walk answers. -/
def answer (ids : List Nat) : Option Nat → Except ResolveError (List Nat)
  | none => .ok ids
  | some p => .error (unknownScope p)

theorem answer_cons (i : Nat) (ids : List Nat) (stop : Option Nat) :
    (answer ids stop).map (i :: ·) = answer (i :: ids) stop := by
  cases stop <;> rfl

namespace Path

theorem lt_length (h : s.Path i ids stop) : ∀ j ∈ ids, j < s.all.length := by
  induction h with
  | unknown _ => simp
  | root hi _ => simpa using hi
  | outer hparent _ ih => exact List.forall_mem_cons.2 ⟨lt_length_of_parentOf hparent, ih⟩

theorem unique {ids' : List Nat} {stop' : Option Nat} (h : s.Path i ids stop)
    (h' : s.Path i ids' stop') : ids = ids' ∧ stop = stop' := by
  induction h generalizing ids' stop' with
  | unknown hi =>
    cases h' with
    | unknown _ => exact ⟨rfl, rfl⟩
    | root hi' _ => omega
    | outer hparent _ => exact absurd (lt_length_of_parentOf hparent) (by omega)
  | root hi hnone =>
    cases h' with
    | unknown hi' => omega
    | root _ _ => exact ⟨rfl, rfl⟩
    | outer hparent _ => simp [hnone] at hparent
  | outer hparent _ ih =>
    cases h' with
    | unknown hi' => exact absurd (lt_length_of_parentOf hparent) (by omega)
    | root _ hnone => simp [hnone] at hparent
    | outer hparent' h' =>
      cases hparent.symm.trans hparent'
      obtain ⟨rfl, rfl⟩ := ih h'
      exact ⟨rfl, rfl⟩

/-- From a scope on the path the walk goes on the same way. -/
theorem split (h : s.Path i ids stop) (hj : j ∈ ids) :
    ∃ before rest, ids = before ++ j :: rest ∧ s.Path j (j :: rest) stop := by
  induction h with
  | unknown _ => cases hj
  | root hi hparent =>
    obtain rfl := List.mem_singleton.1 hj
    exact ⟨[], [], rfl, .root hi hparent⟩
  | @outer i p ids stop hparent h ih =>
    rcases List.mem_cons.1 hj with rfl | hj
    · exact ⟨[], ids, rfl, .outer hparent h⟩
    · obtain ⟨before, rest, rfl, hrest⟩ := ih hj
      exact ⟨i :: before, rest, rfl, hrest⟩

theorem suffix {before after : List Nat} (h : s.Path i (before ++ j :: after) stop) :
    s.Path j (j :: after) stop := by
  induction before generalizing i with
  | nil =>
    cases h with
    | root hi hparent => exact .root hi hparent
    | outer hparent h => exact .outer hparent h
  | cons _ before ih =>
    rw [List.cons_append] at h
    generalize hids : before ++ j :: after = ids at h
    cases h with
    | root => simp at hids
    | outer _ h => exact ih (hids ▸ h)

theorem nodup (h : s.Path i ids stop) : ids.Nodup := by
  induction h with
  | unknown _ => exact List.nodup_nil
  | root _ _ => exact List.nodup_singleton _
  | @outer i p ids stop hparent h ih =>
    refine List.nodup_cons.2 ⟨fun hi => ?_, ih⟩
    -- the path from a scope is unique, so it is no proper part of itself
    obtain ⟨before, rest, rfl, hrest⟩ := h.split hi
    have hsame := (hrest.unique (.outer hparent h)).1
    have hlength := congrArg List.length hsame
    simp only [List.length_cons, List.length_append] at hlength
    omega

theorem length_le (h : s.Path i ids stop) : ids.length ≤ s.all.length := by
  have hsub : ids ⊆ List.range s.all.length := fun j hj => List.mem_range.2 (h.lt_length j hj)
  simpa using (List.subperm_of_subset h.nodup hsub).length_le

theorem head (h : s.Path i ids none) : ∃ rest, ids = i :: rest := by
  cases h with
  | root _ _ => exact ⟨[], rfl⟩
  | outer _ _ => exact ⟨_, rfl⟩

theorem start_lt (h : s.Path i ids none) : i < s.all.length := by
  obtain ⟨rest, rfl⟩ := h.head
  exact h.lt_length i (List.mem_cons_self ..)

/-- The path of the scope around a scope. -/
theorem parent (h : s.Path i ids stop) (hparent : s.parentOf i = some p) :
    ∃ rest, ids = i :: rest ∧ s.Path p rest stop := by
  cases h with
  | unknown hi => exact absurd (lt_length_of_parentOf hparent) (by omega)
  | root _ hnone => simp [hnone] at hparent
  | outer hparent' h =>
    cases hparent.symm.trans hparent'
    exact ⟨_, rfl, h⟩

/-- The path of a scope only asks for parents. -/
theorem congr (h : s.Path i ids stop) (hlength : s'.all.length = s.all.length)
    (hparent : ∀ i, s'.parentOf i = s.parentOf i) : s'.Path i ids stop := by
  induction h with
  | unknown hi => exact .unknown (hlength ▸ hi)
  | root hi hnone => exact .root (hlength ▸ hi) ((hparent _).trans hnone)
  | outer h' _ ih => exact .outer ((hparent _).trans h') ih

/-- A new scope leaves a path as it is, unless the path stops at the number that the scope takes. -/
theorem append {last : Scope} (h : s.Path i ids stop) (hall : s'.all = s.all ++ [last])
    (hstop : stop ≠ some s.all.length) : s'.Path i ids stop := by
  have hlength : s'.all.length = s.all.length + 1 := by simp [hall]
  have hparent {i : Nat} (hi : i < s.all.length) : s'.parentOf i = s.parentOf i := by
    rw [parentOf_of_append hall, if_neg (Nat.ne_of_lt hi)]
  induction h with
  | @unknown i hi =>
    have hne : i ≠ s.all.length := fun h => hstop (congrArg some h)
    exact .unknown (by omega)
  | root hi hnone => exact .root (by omega) ((hparent hi).trans hnone)
  | outer h' _ ih => exact .outer ((hparent (lt_length_of_parentOf h')).trans h') (ih hstop)

/-- A path that stops at the number of a new scope goes on from there. -/
theorem extend {last : Scope} {rest : List Nat} (h : s.Path i ids (some s.all.length))
    (hall : s'.all = s.all ++ [last]) (hrest : s'.Path s.all.length rest stop) :
    s'.Path i (ids ++ rest) stop := by
  generalize hn : some s.all.length = n at h
  induction h with
  | @unknown i hi =>
    cases hn
    exact hrest
  | root _ _ => cases hn
  | outer h' _ ih =>
    refine .outer ?_ (ih hn)
    rw [parentOf_of_append hall, if_neg (Nat.ne_of_lt (lt_length_of_parentOf h')), h']

end Path

/-- In order every scope has a path to a root, over older scopes. -/
theorem Ordered.path (hs : s.Ordered) (hi : i < s.all.length) :
    ∃ rest, s.Path i (i :: rest) none ∧ (i :: rest).Pairwise (· > ·) := by
  induction i using Nat.strongRecOn with
  | ind i ih =>
    cases hparent : s.parentOf i with
    | none => exact ⟨[], .root hi hparent, List.pairwise_singleton _ _⟩
    | some p =>
      have hlt := hs i p hparent
      obtain ⟨rest, hpath, hpair⟩ := ih p hlt (Nat.lt_trans hlt hi)
      refine ⟨p :: rest, .outer hparent hpath, List.pairwise_cons.2 ⟨fun j hj => ?_, hpair⟩⟩
      rcases List.mem_cons.1 hj with rfl | hj
      · exact hlt
      · exact Nat.lt_trans (List.rel_of_pairwise_cons hpair hj) hlt

/-- A new scope has a path to a root if its parent has one. -/
theorem path_of_append {last : Scope} (hall : s'.all = s.all ++ [last])
    (h : ∀ p, last.parent = some p → ∃ ids, s.Path p ids none) :
    ∃ ids, s'.Path s.all.length ids none := by
  have hself : s'.parentOf s.all.length = last.parent := by
    rw [parentOf_of_append hall, if_pos rfl]
  cases hp : last.parent with
  | none => exact ⟨_, .root (by simp [hall]) (hself.trans hp)⟩
  | some p =>
    obtain ⟨ids, hpath⟩ := h p hp
    exact ⟨_, .outer (hself.trans hp) (hpath.append hall (by simp))⟩

/-! ## Answers -/

theorem walk_of_path (h : s.Path i ids stop) {steps : Nat} (hsteps : ids.length < steps) :
    s.walk steps i = some (answer ids stop) := by
  induction h generalizing steps with
  | unknown hi =>
    obtain ⟨n, rfl⟩ := Nat.exists_eq_add_of_lt hsteps
    simp [walk, scope_eq_error hi, answer]
  | root hi hnone =>
    obtain ⟨n, rfl⟩ := Nat.exists_eq_add_of_lt hsteps
    simp [walk, scope_eq_ok hi, ← parentOf_eq hi, hnone, answer]
  | @outer i p ids stop hparent _ ih =>
    have hi := lt_length_of_parentOf hparent
    obtain ⟨n, rfl⟩ := Nat.exists_eq_add_of_lt hsteps
    have hrest := @ih (ids.length + 1 + n) (by omega)
    simp [walk, scope_eq_ok hi, ← parentOf_eq hi, hparent, hrest, answer_cons]

theorem walkOn_of_path (h : s.Path i ids stop) : s.walkOn i = some (answer ids stop) := by
  induction h with
  | unknown hi => simp [walkOn, scope_eq_error hi, answer]
  | root hi hnone => simp [walkOn, scope_eq_ok hi, ← parentOf_eq hi, hnone, answer]
  | outer hparent _ ih =>
    have hi := lt_length_of_parentOf hparent
    rw [walkOn]
    simp [scope_eq_ok hi, ← parentOf_eq hi, hparent, ih, answer_cons]

/-- One step of a walk: it stops here, or goes on from the parent. -/
theorem path_of_step {next : Nat → Option (Except ResolveError (List Nat))}
    (hnext : ∀ p a, next p = some a → ∃ ids stop, s.Path p ids stop ∧ a = answer ids stop)
    {a : Except ResolveError (List Nat)}
    (h : (do
      match s.scope i with
      | .error e => return .error e
      | .ok sc =>
        match sc.parent with
        | none => return .ok [i]
        | some parent => return (← next parent).map (i :: ·)) = some a) :
    ∃ ids stop, s.Path i ids stop ∧ a = answer ids stop := by
  by_cases hi : i < s.all.length
  · simp only [scope_eq_ok hi, ← parentOf_eq hi] at h
    cases hparent : s.parentOf i with
    | none =>
      simp only [hparent, Option.pure_def, Option.some.injEq] at h
      exact ⟨[i], none, .root hi hparent, h.symm⟩
    | some p =>
      simp only [hparent, Option.bind_eq_bind, Option.bind_eq_some_iff, Option.pure_def,
        Option.some.injEq] at h
      obtain ⟨b, hb, rfl⟩ := h
      obtain ⟨ids, stop, hpath, rfl⟩ := hnext p b hb
      exact ⟨i :: ids, stop, .outer hparent hpath, answer_cons i ids stop⟩
  · have hle := Nat.le_of_not_lt hi
    simp only [scope_eq_error hle, Option.pure_def, Option.some.injEq] at h
    exact ⟨[], some i, .unknown hle, h.symm⟩

theorem path_of_walk {steps : Nat} {a : Except ResolveError (List Nat)}
    (h : s.walk steps i = some a) : ∃ ids stop, s.Path i ids stop ∧ a = answer ids stop := by
  induction steps generalizing i a with
  | zero => cases h
  | succ steps ih => exact path_of_step (fun _ _ => ih) h

theorem path_of_walkOn {a : Except ResolveError (List Nat)} (h : s.walkOn i = some a) :
    ∃ ids stop, s.Path i ids stop ∧ a = answer ids stop := by
  refine walkOn.partial_correctness s
    (fun i a => ∃ ids stop, s.Path i ids stop ∧ a = answer ids stop) ?_ i a h
  intro next hnext i a hstep
  exact path_of_step hnext hstep

/-- The bound of a walk is large enough: a walk that does not end in it never ends. -/
theorem walk_eq_walkOn (s : Scopes) (i : Nat) : s.walk (s.all.length + 1) i = s.walkOn i := by
  cases hon : s.walkOn i with
  | some a =>
    obtain ⟨ids, stop, hpath, rfl⟩ := path_of_walkOn hon
    exact walk_of_path hpath (Nat.lt_succ_of_le hpath.length_le)
  | none =>
    cases hwalk : s.walk (s.all.length + 1) i with
    | none => rfl
    | some a =>
      obtain ⟨ids, stop, hpath, rfl⟩ := path_of_walk hwalk
      simp [walkOn_of_path hpath] at hon

theorem chain_eq_getD (s : Scopes) (i : Nat) :
    s.chain i = (s.walkOn i).getD (.error (unknownScope i)) := by
  rw [chain, walk_eq_walkOn]
  cases s.walkOn i <;> rfl

theorem chain_of_path (h : s.Path i ids stop) : s.chain i = answer ids stop := by
  rw [chain_eq_getD, walkOn_of_path h, Option.getD_some]

theorem chain_eq_ok_iff : s.chain i = .ok ids ↔ s.Path i ids none := by
  constructor
  · intro h
    cases hon : s.walkOn i with
    | none => simp [chain_eq_getD, hon] at h
    | some a =>
      obtain ⟨ids', stop, hpath, rfl⟩ := path_of_walkOn hon
      rw [chain_of_path hpath] at h
      cases stop with
      | none =>
        cases h
        exact hpath
      | some p => cases h
  · exact chain_of_path

/-- Walks only ask for parents. -/
theorem walkOn_congr (hlength : s'.all.length = s.all.length)
    (hparent : ∀ i, s'.parentOf i = s.parentOf i) (i : Nat) : s'.walkOn i = s.walkOn i := by
  cases hon : s.walkOn i with
  | some a =>
    obtain ⟨ids, stop, hpath, rfl⟩ := path_of_walkOn hon
    exact walkOn_of_path (hpath.congr hlength hparent)
  | none =>
    cases hon' : s'.walkOn i with
    | none => rfl
    | some a =>
      obtain ⟨ids, stop, hpath, rfl⟩ := path_of_walkOn hon'
      have hback := hpath.congr hlength.symm fun i => (hparent i).symm
      simp [walkOn_of_path hback] at hon

theorem chain_congr (hlength : s'.all.length = s.all.length)
    (hparent : ∀ i, s'.parentOf i = s.parentOf i) (i : Nat) : s'.chain i = s.chain i := by
  rw [chain_eq_getD, chain_eq_getD, walkOn_congr hlength hparent]

/-! ## Circles -/

/-- The walk from a scope comes to a scope again that it has passed. -/
def Circles (s : Scopes) (id : Nat) : Prop :=
  ∃ j, Relation.ReflTransGen (fun i p => s.parentOf i = some p) id j ∧ s.Below j j

theorem Circles.mono (h : s.Circles i)
    (hparent : ∀ i < s.all.length, s'.parentOf i = s.parentOf i) : s'.Circles i := by
  have hstep (i p : Nat) (h : s.parentOf i = some p) : s'.parentOf i = some p :=
    (hparent i (lt_length_of_parentOf h)).trans h
  obtain ⟨j, hreach, hbelow⟩ := h
  exact ⟨j, Relation.ReflTransGen.mono hstep _ _ hreach, Relation.TransGen.mono hstep _ _ hbelow⟩

theorem Path.of_reaches (h : s.Path i ids stop)
    (hreach : Relation.ReflTransGen (fun i p => s.parentOf i = some p) i j) :
    ∃ rest, s.Path j rest stop := by
  induction hreach with
  | refl => exact ⟨ids, h⟩
  | tail _ hparent ih =>
    obtain ⟨rest, hrest⟩ := ih
    obtain ⟨rest', -, hrest'⟩ := hrest.parent hparent
    exact ⟨rest', hrest'⟩

/-- What a walk comes to, it passes or stops at. -/
theorem Path.mem_of_below (h : s.Path i (i :: ids) stop) (hbelow : s.Below i j)
    (hj : j < s.all.length) : j ∈ ids := by
  induction hbelow using Relation.TransGen.head_induction_on generalizing ids with
  | single hparent =>
    obtain ⟨rest, hsame, hrest⟩ := h.parent hparent
    cases hsame
    cases hrest with
    | unknown hle => omega
    | root _ _ | outer _ _ => exact List.mem_cons_self ..
  | head hparent hrest ih =>
    obtain ⟨rest, hsame, hpath⟩ := h.parent hparent
    cases hsame
    obtain ⟨tail, rfl⟩ : ∃ tail, ids = _ :: tail := by
      cases hpath with
      | unknown hle =>
        obtain ⟨q, hq, -⟩ := Relation.TransGen.head'_iff.1 hrest
        exact absurd (lt_length_of_parentOf hq) (by omega)
      | root _ _ | outer _ _ => exact ⟨_, rfl⟩
    exact List.mem_cons_of_mem _ (ih hpath)

theorem Path.not_circles (h : s.Path i ids stop) : ¬ s.Circles i := by
  rintro ⟨j, hreach, hbelow⟩
  obtain ⟨rest, hrest⟩ := h.of_reaches hreach
  obtain ⟨q, hq, -⟩ := Relation.TransGen.head'_iff.1 hbelow
  obtain ⟨tail, rfl, -⟩ := hrest.parent hq
  exact (List.nodup_cons.1 hrest.nodup).1
    (hrest.mem_of_below hbelow (lt_length_of_parentOf hq))

/-- A walk that has not ended yet has passed scopes that lie below each other. -/
theorem passed_of_walk {steps : Nat} (h : s.walk steps i = none) :
    ∃ ids : List Nat, ids.length = steps ∧ ids.Pairwise s.Below ∧
      ∀ j ∈ ids, j < s.all.length ∧
        Relation.ReflTransGen (fun i p => s.parentOf i = some p) i j := by
  induction steps generalizing i with
  | zero => exact ⟨[], rfl, List.Pairwise.nil, by simp⟩
  | succ steps ih =>
    have hi : i < s.all.length := by
      by_contra hle
      simp [walk, scope_eq_error (Nat.le_of_not_lt hle)] at h
    simp only [walk, scope_eq_ok hi, ← parentOf_eq hi] at h
    cases hparent : s.parentOf i with
    | none => simp [hparent] at h
    | some p =>
      simp only [hparent, Option.bind_eq_bind, Option.pure_def, Option.bind_eq_none_iff,
        reduceCtorEq, imp_false, ← Option.eq_none_iff_forall_ne_some] at h
      obtain ⟨ids, hlength, hpair, hids⟩ := ih h
      refine ⟨i :: ids, by simp [hlength], List.pairwise_cons.2 ⟨fun j hj => ?_, hpair⟩, ?_⟩
      · exact .head' hparent (hids j hj).2
      · refine List.forall_mem_cons.2 ⟨⟨hi, .refl⟩, fun j hj => ?_⟩
        exact ⟨(hids j hj).1, .head hparent (hids j hj).2⟩

/-- A walk never ends exactly when it goes round in a circle. -/
theorem walkOn_eq_none_iff : s.walkOn i = none ↔ s.Circles i := by
  constructor
  · intro h
    rw [← walk_eq_walkOn] at h
    obtain ⟨ids, hlength, hpair, hids⟩ := passed_of_walk h
    by_contra hcircle
    -- without a circle the scopes passed are distinct, but there are too many of them
    have hnodup : ids.Nodup := by
      refine hpair.imp_of_mem fun {a b} ha _ hbelow => ?_
      rintro rfl
      exact hcircle ⟨a, (hids a ha).2, hbelow⟩
    have hsub : ids ⊆ List.range s.all.length := fun j hj => List.mem_range.2 (hids j hj).1
    have hle := (List.subperm_of_subset hnodup hsub).length_le
    rw [hlength, List.length_range] at hle
    omega
  · intro h
    cases hon : s.walkOn i with
    | none => rfl
    | some a =>
      obtain ⟨ids, stop, hpath, -⟩ := path_of_walkOn hon
      exact absurd h hpath.not_circles

theorem not_circles_iff : ¬ s.Circles i ↔ ∃ ids stop, s.Path i ids stop := by
  rw [← walkOn_eq_none_iff]
  constructor
  · intro h
    obtain ⟨a, ha⟩ := Option.ne_none_iff_exists'.1 h
    obtain ⟨ids, stop, hpath, -⟩ := path_of_walkOn ha
    exact ⟨ids, stop, hpath⟩
  · rintro ⟨ids, stop, hpath⟩ h
    simp [walkOn_of_path hpath] at h

theorem Path.reaches (h : s.Path i ids (some j)) :
    Relation.ReflTransGen (fun i p => s.parentOf i = some p) i j := by
  generalize hn : some j = n at h
  induction h with
  | unknown _ =>
    cases hn
    exact .refl
  | root _ _ => cases hn
  | outer hparent _ ih => exact .head hparent (ih hn)

/-- A new scope closes a circle exactly when the walk from its parent stops at its own number. -/
theorem append_not_circles_iff {last : Scope} (hall : s'.all = s.all ++ [last]) :
    (∀ i, ¬ s'.Circles i) ↔ (∀ i, ¬ s.Circles i) ∧
      ∀ p ids, last.parent = some p → ¬ s.Path p ids (some s.all.length) := by
  have hparent (i : Nat) (hi : i < s.all.length) : s'.parentOf i = s.parentOf i := by
    rw [parentOf_of_append hall, if_neg (Nat.ne_of_lt hi)]
  have hself : s'.parentOf s.all.length = last.parent := by
    rw [parentOf_of_append hall, if_pos rfl]
  constructor
  · refine fun h => ⟨fun i hi => h i (hi.mono hparent), fun p ids hp hpath => ?_⟩
    have hback := Relation.ReflTransGen.mono
      (fun i _ hq => (hparent i (lt_length_of_parentOf hq)).trans hq) _ _ hpath.reaches
    exact h s.all.length ⟨s.all.length, .refl, .head' (hself.trans hp) hback⟩
  · rintro ⟨h, hopen⟩ i
    -- the walk from the new scope ends, and so do the walks that come to it
    have hnew : ∃ ids stop, s'.Path s.all.length ids stop := by
      cases hp : last.parent with
      | none => exact ⟨_, _, .root (by simp [hall]) (hself.trans hp)⟩
      | some p =>
        obtain ⟨ids, stop, hpath⟩ := not_circles_iff.1 (h p)
        have hstop : stop ≠ some s.all.length := by
          rintro rfl
          exact hopen p ids hp hpath
        exact ⟨_, _, .outer (hself.trans hp) (hpath.append hall hstop)⟩
    obtain ⟨ids, stop, hpath⟩ := not_circles_iff.1 (h i)
    rw [not_circles_iff]
    by_cases hstop : stop = some s.all.length
    · subst hstop
      obtain ⟨rest, stop, hrest⟩ := hnew
      exact ⟨_, _, hpath.extend hall hrest⟩
    · exact ⟨_, _, hpath.append hall hstop⟩

end SchemaQuery.Scopes
