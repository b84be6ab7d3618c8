-- SUMMARY: Where a query declares and reads common table expressions of one name, in the order of planning.
import SchemaQuery.Proofs.Query.Rename

/-!
# Declarations and reads of one name

Several queries may declare a common table expression under the same name, if none
of them is in sight of another. `BoundQuery.cteEvents` lists what happens to one
name in the order of planning: an expression is declared after its own query, and
a source is read by the step that needs its rows, after the queries nested in the
other side of a join.
-/

namespace SchemaQuery

/-! ## Events -/

/-- A source that is a common table expression, with the scope of its block. -/
structure CteUse where
  scope : Nat
  aliasName : String
  columns : List Column
deriving DecidableEq

/-- What happens to a name of common table expressions. -/
inductive CteEvent where
  | declares (scope : Nat) (query : BoundQuery)
  | reads (use : CteUse)

/-- The source itself, if it is an expression of the name. -/
def BoundSource.cteUses (name : String) (scope : Nat) : BoundSource → List CteUse
  | .inMemory a table .cte columns => if table = name then [⟨scope, a, columns⟩] else []
  | .schema .. | .inMemory .. | .subquery .. | .join .. | .apply .. => []

theorem BoundSource.scope_of_mem_cteUses {name : String} {scope : Nat} {src : BoundSource}
    {u : CteUse} (h : u ∈ src.cteUses name scope) : u.scope = scope := by
  unfold cteUses at h
  split at h
  · split at h
    · obtain rfl := List.mem_singleton.1 h
      rfl
    · cases h
  all_goals cases h

mutual

def BoundQuery.cteEvents (name : String) : BoundQuery → List CteEvent
  | ⟨scope, ctes, body, _, _, _, _⟩ =>
    BoundQuery.eventsOfCtes name scope ctes ++ body.cteEvents name scope

def BoundQuery.eventsOfCtes (name : String) (scope : Nat) : List BoundCte → List CteEvent
  | [] => []
  | ⟨declared, query⟩ :: rest =>
    query.cteEvents name ++ ((if declared = name then [.declares scope query] else []) ++
      BoundQuery.eventsOfCtes name scope rest)

/-- The events of a body. The last step of a block reads its source. -/
def BoundBody.cteEvents (name : String) (scope : Nat) : BoundBody → List CteEvent
  | .select ⟨_, source, _, _, _, _, _⟩ =>
    source.cteEvents name scope ++ (source.cteUses name scope).map .reads
  | .setOperation _ _ left right => left.cteEvents name ++ right.cteEvents name

/-- The events before a source can be read. A join or apply reads both its sides. -/
def BoundSource.cteEvents (name : String) (scope : Nat) : BoundSource → List CteEvent
  | .schema .. | .inMemory .. => []
  | .subquery _ query _ => query.cteEvents name
  | .join _ _ left right _ | .apply _ _ left right =>
    left.cteEvents name scope ++ (right.cteEvents name scope ++
      (left.cteUses name scope ++ right.cteUses name scope).map .reads)

end

def CteEvent.use? : CteEvent → Option CteUse
  | .declares .. => none
  | .reads use => some use

/-- The sources of a query that are common table expressions of a name, in the order in which they
    are read. -/
def BoundQuery.cteUses (name : String) (q : BoundQuery) : List CteUse :=
  (q.cteEvents name).filterMap CteEvent.use?

variable {name : String}

theorem BoundBody.cteEvents_select (scope : Nat) (s : BoundSelect) :
    (select s).cteEvents name scope =
      s.source.cteEvents name scope ++ (s.source.cteUses name scope).map .reads := by
  cases s
  simp [cteEvents]

namespace BoundQuery

theorem cteEvents_eq (q : BoundQuery) :
    q.cteEvents name = eventsOfCtes name q.scope q.ctes ++ q.body.cteEvents name q.scope := by
  cases q
  simp [cteEvents]

theorem cteEvents_renameOutput (names : List String) : ∀ q : BoundQuery,
    (q.renameOutput names).cteEvents name = q.cteEvents name
  | ⟨scope, ctes, .select s, orderBy, skip, take, output⟩ => by
    rw [renameOutput, BoundBody.renameOutput, cteEvents_eq, cteEvents_eq,
      BoundBody.cteEvents_select, BoundBody.cteEvents_select]
  | ⟨scope, ctes, .setOperation operator keys left right, orderBy, skip, take, output⟩ => by
    rw [renameOutput, BoundBody.renameOutput, cteEvents_eq, cteEvents_eq, BoundBody.cteEvents,
      BoundBody.cteEvents, cteEvents_renameOutput names left, cteEvents_renameOutput names right]

end BoundQuery

/-! ## Declarations -/

/-- Every declaration is that of an expression of a query. -/
def DeclaredIn (name : String) (qs : List BoundQuery) (es : List CteEvent) : Prop :=
  ∀ scope c, .declares scope c ∈ es → ∃ q ∈ qs, q.scope = scope ∧ ⟨name, c⟩ ∈ q.ctes

section Declarations

variable {qs qs' : List BoundQuery} {es es' : List CteEvent}

theorem DeclaredIn.mono (h : DeclaredIn name qs es) (hle : qs ⊆ qs') : DeclaredIn name qs' es :=
  fun scope c hmem => (h scope c hmem).imp fun _ hq => ⟨hle hq.1, hq.2⟩

theorem DeclaredIn.append (h : DeclaredIn name qs es) (h' : DeclaredIn name qs es') :
    DeclaredIn name qs (es ++ es') :=
  fun scope c hmem => (List.mem_append.1 hmem).elim (h scope c) (h' scope c)

theorem declaredIn_reads (us : List CteUse) : DeclaredIn name qs (us.map .reads) := by
  intro scope c hmem
  obtain ⟨u, -, hu⟩ := List.mem_map.1 hmem
  cases hu

theorem DeclaredIn.pair {left right : List CteEvent} {us : List CteUse}
    (hl : DeclaredIn name qs left) (hr : DeclaredIn name qs' right) :
    DeclaredIn name (qs ++ qs') (left ++ (right ++ us.map .reads)) :=
  (hl.mono (List.subset_append_left _ _)).append
    ((hr.mono (List.subset_append_right _ _)).append (declaredIn_reads us))

mutual

theorem BoundQuery.declaredIn : ∀ q : BoundQuery, DeclaredIn name q.queries (q.cteEvents name)
  | ⟨scope, ctes, body, orderBy, skip, take, output⟩ => by
    rw [BoundQuery.queries, BoundQuery.cteEvents]
    refine .append (BoundQuery.declaredIn_ctes ctes ?_ ?_) (body.declaredIn.mono ?_)
    · exact ⟨_, List.mem_cons_self, rfl, List.Subset.refl _⟩
    · exact List.subset_cons_of_subset _ (List.subset_append_left _ _)
    · exact List.subset_cons_of_subset _ (List.subset_append_right _ _)

theorem BoundQuery.declaredIn_ctes {scope : Nat} {qs : List BoundQuery} : ∀ ctes : List BoundCte,
    (∃ q ∈ qs, q.scope = scope ∧ ctes ⊆ q.ctes) → BoundQuery.queriesOfCtes ctes ⊆ qs →
    DeclaredIn name qs (BoundQuery.eventsOfCtes name scope ctes)
  | [], _, _ => by
    rw [BoundQuery.eventsOfCtes]
    exact nofun
  | ⟨declared, query⟩ :: rest, ⟨q, hq, hscope, hctes⟩, hnested => by
    rw [BoundQuery.queriesOfCtes, List.append_subset] at hnested
    rw [BoundQuery.eventsOfCtes]
    rw [List.cons_subset] at hctes
    refine (query.declaredIn.mono hnested.1).append (.append ?_
      (BoundQuery.declaredIn_ctes rest ⟨q, hq, hscope, hctes.2⟩ hnested.2))
    intro scope' c hmem
    split at hmem
    · rename_i hname
      cases List.mem_singleton.1 hmem
      exact ⟨q, hq, hscope, hname ▸ hctes.1⟩
    · cases hmem

theorem BoundBody.declaredIn {scope : Nat} : ∀ body : BoundBody,
    DeclaredIn name body.queries (body.cteEvents name scope)
  | .select ⟨_, source, _, _, _, _, _⟩ => by
    rw [BoundBody.queries, BoundBody.cteEvents]
    exact source.declaredIn.append (declaredIn_reads _)
  | .setOperation _ _ left right => by
    rw [BoundBody.queries, BoundBody.cteEvents]
    exact (left.declaredIn.mono (List.subset_append_left _ _)).append
      (right.declaredIn.mono (List.subset_append_right _ _))

theorem BoundSource.declaredIn {scope : Nat} : ∀ source : BoundSource,
    DeclaredIn name source.queries (source.cteEvents name scope)
  | .schema .. | .inMemory .. => by
    rw [BoundSource.cteEvents]
    exact nofun
  | .subquery _ query _ => by
    rw [BoundSource.queries, BoundSource.cteEvents]
    exact query.declaredIn
  | .join _ _ left right _ | .apply _ _ left right => by
    rw [BoundSource.queries, BoundSource.cteEvents]
    exact left.declaredIn.pair right.declaredIn

end

end Declarations

/-! ## The latest declaration -/

/-- A declaration: its scope and its query. -/
abbrev CteDeclaration := Nat × BoundQuery

/-- The latest declaration after some events. -/
def latestAfter : Option CteDeclaration → List CteEvent → Option CteDeclaration
  | latest, [] => latest
  | _, .declares scope query :: es => latestAfter (some (scope, query)) es
  | latest, .reads _ :: es => latestAfter latest es

/-- Every read is related to the declaration that is the latest one at that time. -/
def Follows (R : Option CteDeclaration → CteUse → Prop) :
    Option CteDeclaration → List CteEvent → Prop
  | _, [] => True
  | _, .declares scope query :: es => Follows R (some (scope, query)) es
  | latest, .reads use :: es => R latest use ∧ Follows R latest es

/-- No expression of the name is declared. -/
def Quiet (es : List CteEvent) : Prop := ∀ scope query, .declares scope query ∉ es

variable {R R' : Option CteDeclaration → CteUse → Prop} {latest : Option CteDeclaration}
  {es es' : List CteEvent}

theorem latestAfter_append :
    latestAfter latest (es ++ es') = latestAfter (latestAfter latest es) es' := by
  induction es generalizing latest with
  | nil => rfl
  | cons e es ih => cases e <;> exact ih

theorem Quiet.latestAfter (h : Quiet es) : latestAfter latest es = latest := by
  induction es with
  | nil => rfl
  | cons e es ih =>
    cases e with
    | declares scope query => exact absurd List.mem_cons_self (h scope query)
    | reads use => exact ih fun scope query hmem => h scope query (List.mem_cons_of_mem _ hmem)

theorem Quiet.append (h : Quiet es) (h' : Quiet es') : Quiet (es ++ es') :=
  fun scope query hmem => (List.mem_append.1 hmem).elim (h scope query) (h' scope query)

theorem quiet_reads (us : List CteUse) : Quiet (us.map .reads) := by
  intro scope query hmem
  obtain ⟨u, -, hu⟩ := List.mem_map.1 hmem
  cases hu

theorem follows_append :
    Follows R latest (es ++ es') ↔ Follows R latest es ∧ Follows R (latestAfter latest es) es' := by
  induction es generalizing latest with
  | nil => simp [Follows, latestAfter]
  | cons e es ih =>
    cases e with
    | declares scope query => exact ih
    | reads use => simp only [List.cons_append, Follows, ih, latestAfter, and_assoc]

theorem follows_reads (us : List CteUse) :
    Follows R latest (us.map .reads) ↔ ∀ u ∈ us, R latest u := by
  induction us with
  | nil => simp [Follows]
  | cons u us ih => simp [Follows, ih]

/-- The latest declaration is that of an expression of a query. -/
theorem Follows.declaredIn {qs : List BoundQuery} (h : Follows R latest es)
    (hes : DeclaredIn name qs es)
    (hlatest : ∀ d c, latest = some (d, c) → ∃ q ∈ qs, q.scope = d ∧ ⟨name, c⟩ ∈ q.ctes) :
    Follows (fun latest u => R latest u ∧ ∀ d c, latest = some (d, c) →
      ∃ q ∈ qs, q.scope = d ∧ ⟨name, c⟩ ∈ q.ctes) latest es := by
  induction es generalizing latest with
  | nil => trivial
  | cons e es ih =>
    have hrest : DeclaredIn name qs es := fun d c hmem => hes d c (List.mem_cons_of_mem _ hmem)
    cases e with
    | declares scope query =>
      refine ih h hrest fun d c heq => ?_
      cases heq
      exact hes scope query List.mem_cons_self
    | reads use => exact ⟨⟨h.1, hlatest⟩, ih h.2 hrest hlatest⟩

theorem Follows.mono (h : Follows R latest es) (hle : ∀ latest u, R latest u → R' latest u) :
    Follows R' latest es := by
  induction es generalizing latest with
  | nil => trivial
  | cons e es ih =>
    cases e with
    | declares scope query => exact ih h
    | reads use => exact ⟨hle latest use h.1, ih h.2⟩

end SchemaQuery
