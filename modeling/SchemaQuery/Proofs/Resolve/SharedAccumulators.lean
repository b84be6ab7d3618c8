-- SUMMARY: When two aggregates that share an accumulator are the same aggregate.
import SchemaQuery.Proofs.Resolve.Query
import SchemaQuery.Proofs.Resolve.TermText
import SchemaQuery.Sample.Catalog
import SchemaQuery.Sample.Query

/-!
# Shared accumulators

The accumulator of an aggregate is named by the text of its call, and aggregates
with the same text share it. The text leaves out the schema and the signature of
the aggregate, and of its arguments the brackets, the types and the methods
behind calls. Two aggregates that share an accumulator are the same aggregate
exactly when they agree on what the text leaves out: the schema, the signature,
and the shape of the arguments.
-/

namespace SchemaQuery

/-! ## Shapes -/

theorem toString_int_injective {a b : Int} (h : toString a = toString b) : a = b := by
  have hsign (n m : Nat) : toString n ≠ "-" ++ toString m := by
    intro h
    have hmem : '-' ∈ (toString n).toList := by simp [h]
    exact absurd (isDigit_of_mem_toString hmem) (by decide)
  cases a <;> cases b
  · exact congrArg Int.ofNat (toString_nat_injective h)
  · exact absurd h (hsign _ _)
  · exact absurd h.symm (hsign _ _)
  · have hdigits := String.append_right_inj _ |>.1 h
    exact congrArg Int.negSucc (Nat.succ.inj (toString_nat_injective hdigits))

/-- Literals of one kind whose texts have the same length; doubles are equal as numbers. -/
def Literal.Matches : Literal → Literal → Prop
  | .null, .null => True
  | .boolean a, .boolean b => a = b
  | .integer a, .integer b => (toString a).length = (toString b).length
  | .float a, .float b => (a == b) = true ∧ (Number.render a).length = (Number.render b).length
  | .string a, .string b => (quoteText a).length = (quoteText b).length
  | _, _ => False

namespace Term

/-- Nodes of one kind that are equal up to the names and literals in their texts, which have the
    same length. -/
def Matches : Term → Term → Prop
  | .literal v type, .literal v' type' => v.Matches v' ∧ type = type'
  | .column a n _ q _, .column a' n' _ q' _ =>
    q = q' ∧ n.length = n'.length ∧ (q = true → a.length = a'.length)
  | .property _ n type, .property _ n' type' => n.length = n'.length ∧ type = type'
  | t, t' => SameNode t t'

/-- Terms that are equal up to names and literals of the same length. -/
def SameShape : Term → Term → Prop := Alike Matches

/-- The text of a double. -/
def floatText? : Term → Option String
  | .literal (.float x) _ => some (Number.render x)
  | _ => none

/-- Nodes that are not doubles written differently. -/
def SameFloatText (t t' : Term) : Prop := t.floatText? = t'.floatText?

/-! ## Nodes of one kind -/

/-- Equal nodes have equal labels, except that columns may be qualified differently and that
    literals are compared as values. -/
theorem SameNode.cases {t t' : Term} (h : SameNode t t') :
    t.label = t'.label ∨
      (∃ a n o q q' type, t = .column a n o q type ∧ t' = .column a n o q' type) ∨
      ∃ v v' type, t = .literal v type ∧ t' = .literal v' type ∧ v.same v' = true := by
  cases t with
  | case bs o type =>
    cases t' with
    | case bs' o' type' => cases o <;> cases o' <;> simp_all [SameNode, sameValue, label]
    | _ => cases o <;> exact absurd h Bool.false_ne_true
  | _ =>
    cases t' <;> first
      | exact absurd h Bool.false_ne_true
      | simp_all [SameNode, sameValue, label]

theorem opening_label (t : Term) : t.label.opening = t.opening := by
  cases t <;> rfl

theorem ending_label (t : Term) : t.label.ending = t.ending := by
  cases t <;> rfl

theorem listLeads_congr {ts ts' : List Term} (h : ts.length = ts'.length) :
    listLeads ts = listLeads ts' := by
  cases ts with
  | nil =>
    obtain rfl := List.length_eq_zero_iff.1 h.symm
    rfl
  | cons t ts =>
    cases ts' with
    | nil => cases h
    | cons t' ts' => simp only [listLeads, List.map_const', Nat.succ.inj h]

theorem branchLeads_congr {bs bs' : List (Term × Term)} (h : bs.length = bs'.length) :
    bs.flatMap (fun _ => [" when ", " then "]) = bs'.flatMap fun _ => [" when ", " then "] := by
  induction bs generalizing bs' with
  | nil =>
    obtain rfl := List.length_eq_zero_iff.1 h.symm
    rfl
  | cons b bs ih =>
    cases bs' with
    | nil => cases h
    | cons b' bs' => simp [ih (Nat.succ.inj h)]

theorem leads_case_congr {bs bs' : List (Term × Term)} {o o' : Option Term} {type type' : DataType}
    (h : (case bs o type).label = (case bs' o' type').label)
    (hlength : (case bs o type).children.length = (case bs' o' type').children.length) :
    (case bs o type).leads = (case bs' o' type').leads := by
  have hotherwise : o.map (fun _ => " else ") = o'.map fun _ => " else " := by
    cases o <;> cases o' <;> first | rfl | cases h
  have hsame : o.toList.length = o'.toList.length := by
    cases o <;> cases o' <;> first | rfl | cases h
  have hbranches : bs.length = bs'.length := by
    simp only [children, List.length_append, List.length_flatMap, hsame] at hlength
    simp at hlength
    omega
  simp only [leads, hotherwise, branchLeads_congr hbranches]

theorem leads_of_label {t t' : Term} (h : t.label = t'.label)
    (hlength : t.children.length = t'.children.length) : t.leads = t'.leads := by
  cases t with
  | call | aggregate | list =>
    cases t' <;> first
      | exact listLeads_congr hlength
      | cases h
  | case =>
    cases t' with
    | case => exact leads_case_congr h hlength
    | _ => cases h
  | _ =>
    cases t' <;> cases h
    rfl

/-- Nodes with equal labels and equally many parts are written alike. -/
theorem Fits.of_label {t t' : Term} (h : t.label = t'.label)
    (hlength : t.children.length = t'.children.length) : Fits t t' where
  opening := by rw [← opening_label t, h, opening_label]
  leads := leads_of_label h hlength
  ending := .inl (by rw [← ending_label t, h, ending_label])

end Term

/-! ## Literals -/

namespace Literal

/-- A sign between apostrophes: an apostrophe is doubled. -/
def quoted (c : Char) : List Char := if c = '\'' then ['\'', '\''] else [c]

theorem quoted_append_inj {c c' : Char} {cs cs' : List Char}
    (h : quoted c ++ cs = quoted c' ++ cs') : c = c' ∧ cs = cs' := by
  unfold quoted at h
  split at h <;> split at h <;> grind

theorem quoted_injective {cs cs' : List Char} (h : cs.flatMap quoted = cs'.flatMap quoted) :
    cs = cs' := by
  have hne (c : Char) (cs : List Char) : [] ≠ (c :: cs).flatMap quoted := by
    simp only [List.flatMap_cons, quoted]
    split <;> simp
  induction cs generalizing cs' with
  | nil =>
    cases cs' with
    | nil => rfl
    | cons c' cs' => exact absurd h (hne c' cs')
  | cons c cs ih =>
    cases cs' with
    | nil => exact absurd h.symm (hne c cs)
    | cons c' cs' =>
      obtain ⟨rfl, hrest⟩ := quoted_append_inj h
      rw [ih hrest]

theorem quoteText_injective {s s' : String} (h : quoteText s = quoteText s') : s = s' := by
  have hquoted (s : String) : (String.join (s.toList.map fun c =>
      if c = '\'' then "''" else String.singleton c)).toList = s.toList.flatMap quoted := by
    rw [String.toList_join, List.flatMap_map]
    refine congrArg (s.toList.flatMap ·) (funext fun c => ?_)
    unfold quoted
    split <;> simp
  have htext := congrArg String.toList h
  simp only [quoteText, String.toList_append, hquoted] at htext
  exact String.toList_inj.1
    (quoted_injective (List.append_cancel_left (List.append_cancel_right htext)))

theorem length_render_of_matches {v v' : Literal} (h : v.Matches v') :
    v.render.length = v'.render.length := by
  cases v <;> cases v' <;> first
    | exact absurd h id
    | exact h
    | exact h.2
    | simp_all [Matches]

/-- Equal literals have equal texts, doubles that are written alike included. -/
theorem render_of_same {v v' : Literal} {type : DataType} (h : v.same v' = true)
    (hfloat : Term.SameFloatText (.literal v type) (.literal v' type)) : v.render = v'.render := by
  cases v <;> cases v' <;> first
    | exact absurd h Bool.false_ne_true
    | exact Option.some.inj hfloat
    | simp_all [same]

theorem matches_of_same {v v' : Literal} (h : v.same v' = true) (hrender : v.render = v'.render) :
    v.Matches v' := by
  cases v <;> cases v' <;> first
    | exact absurd h Bool.false_ne_true
    | exact congrArg String.length hrender
    | exact ⟨h, congrArg String.length hrender⟩
    | simp_all [same, Matches]

theorem same_of_matches {v v' : Literal} (h : v.Matches v') (hrender : v.render = v'.render) :
    v.same v' = true := by
  cases v <;> cases v' <;> first
    | exact absurd h id
    | exact h.1
    | exact beq_iff_eq.2 (toString_int_injective hrender)
    | exact beq_iff_eq.2 (quoteText_injective hrender)
    | simp_all [same, Matches]

end Literal

namespace Term

/-! ## Values, texts and shapes -/

variable {t t' : Term}

theorem fits_of_sameNode (h : SameNode t t') (hfloat : SameFloatText t t')
    (hlength : t.children.length = t'.children.length) : Fits t t' := by
  rcases h.cases with hlabel | ⟨a, n, o, q, q', type, rfl, rfl⟩ | ⟨v, v', type, rfl, rfl, hsame⟩
  · exact .of_label hlabel hlength
  · refine ⟨rfl, rfl, ?_⟩
    cases q <;> cases q'
    · exact .inl rfl
    · exact .inr ⟨rfl, rfl, a, .inr rfl⟩
    · exact .inr ⟨rfl, rfl, a, .inl rfl⟩
    · exact .inl rfl
  · exact ⟨rfl, rfl, .inl (congrArg String.length (Literal.render_of_same hsame hfloat))⟩

theorem fits_of_matches (h : Matches t t') (hlength : t.children.length = t'.children.length) :
    Fits t t' := by
  cases t with
  | literal v type =>
    cases t' with
    | literal v' type' => exact ⟨rfl, rfl, .inl (Literal.length_render_of_matches h.1)⟩
    | _ => exact absurd h Bool.false_ne_true
  | column a n o q type =>
    cases t' with
    | column a' n' o' q' type' =>
      obtain ⟨rfl, hname, hqualifier⟩ := h
      refine ⟨rfl, rfl, .inl ?_⟩
      cases q with
      | true => simp [ending, render, hname, hqualifier rfl]
      | false => exact hname
    | _ => exact absurd h Bool.false_ne_true
  | property e n type =>
    cases t' with
    | property e' n' type' => exact ⟨rfl, rfl, .inl (by simp [ending, h.1])⟩
    | _ => exact absurd h Bool.false_ne_true
  | _ =>
    have hnode : SameNode _ t' := h
    rcases hnode.cases with hlabel | ⟨_, _, _, _, _, _, hcolumn, -⟩ | ⟨_, _, _, hliteral, -⟩
    · exact .of_label hlabel hlength
    · cases hcolumn
    · cases hliteral

/-- Nodes with the same value and the same text have the same shape. -/
theorem matches_of_sameNode (h : SameNode t t') (hending : SameEnding t t') : Matches t t' := by
  cases t with
  | literal v type =>
    cases t' with
    | literal v' type' =>
      obtain ⟨hsame, htype⟩ : v.same v' = true ∧ type = type' := by
        simpa [SameNode, label, sameValue] using h
      exact ⟨Literal.matches_of_same hsame hending, htype⟩
    | _ => exact h
  | column a n o q type =>
    cases t' with
    | column a' n' o' q' type' =>
      obtain ⟨⟨⟨rfl, rfl⟩, -⟩, -⟩ : ((a = a' ∧ n = n') ∧ o = o') ∧ type = type' := by
        simpa [SameNode, label, sameValue] using h
      have hlength := congrArg String.length hending
      refine ⟨?_, rfl, fun _ => rfl⟩
      cases q <;> cases q' <;> simp [ending, render] at hlength ⊢
    | _ => exact h
  | property e n type =>
    cases t' with
    | property e' n' type' =>
      obtain ⟨rfl, htype⟩ : n = n' ∧ type = type' := by
        simpa [SameNode, label, sameValue, sameValue_default] using h
      exact ⟨rfl, htype⟩
    | _ => exact h
  | _ => exact h

/-- Columns of the same tables with the same text are the same column. -/
theorem sameColumn_of_matches {tables : List TableSymbol} {a a' n n' : String} {o o' : Nat}
    {q q' : Bool} {type type' : DataType}
    (h : Matches (.column a n o q type) (.column a' n' o' q' type'))
    (hending : SameEnding (.column a n o q type) (.column a' n' o' q' type'))
    (hresolved : (column a n o q type).ResolvedIn tables)
    (hresolved' : (column a' n' o' q' type').ResolvedIn tables) :
    SameNode (.column a n o q type) (.column a' n' o' q' type') := by
  obtain ⟨rfl, hname, hqualifier⟩ := h
  cases q with
  | true =>
    have htext : a.toList ++ '.' :: n.toList = a'.toList ++ '.' :: n'.toList := by
      simpa [ending, render] using congrArg String.toList hending
    obtain ⟨halias, hrest⟩ := List.append_inj htext (by
      rw [String.length_toList, String.length_toList, hqualifier rfl])
    obtain rfl := String.toList_inj.1 halias
    obtain rfl := String.toList_inj.1 (List.cons.inj hrest).2
    obtain ⟨t, hfind, hcolumn⟩ := hresolved
    obtain ⟨t', hfind', hcolumn'⟩ := hresolved'
    obtain rfl : t = t' := Option.some.inj (hfind.symm.trans hfind')
    cases Option.some.inj (hcolumn.symm.trans hcolumn')
    simp [SameNode, label, sameValue]
  | false =>
    obtain rfl : n = n' := hending
    obtain ⟨t, howners, rfl⟩ := hresolved
    obtain ⟨t', howners', rfl⟩ := hresolved'
    obtain ⟨rfl, hcolumn⟩ : t = t' ∧ (⟨n, o, type⟩ : Column) = ⟨n, o', type'⟩ := by
      simpa [howners] using howners'
    cases hcolumn
    simp [SameNode, label, sameValue]

/-- Nodes of the same shape with the same text have the same value, when their columns are those of
    the same tables. -/
theorem sameNode_of_matches {tables : List TableSymbol} (h : Matches t t')
    (hending : SameEnding t t') (hresolved : t.ResolvedIn tables)
    (hresolved' : t'.ResolvedIn tables) : SameNode t t' := by
  cases t with
  | literal v type =>
    cases t' with
    | literal v' type' =>
      simp [SameNode, label, sameValue, Literal.same_of_matches h.1 hending, h.2]
    | _ => exact h
  | column a n o q type =>
    cases t' with
    | column a' n' o' q' type' => exact sameColumn_of_matches h hending hresolved hresolved'
    | _ => exact h
  | property e n type =>
    cases t' with
    | property e' n' type' =>
      have hname : n = n' := by
        simpa [SameEnding, ending, String.append_right_inj] using hending
      simp [SameNode, label, sameValue, sameValue_default, hname, h.2]
    | _ => exact h
  | _ => exact h

theorem sameFloatText_of_matches (h : Matches t t') (hending : SameEnding t t') :
    SameFloatText t t' := by
  cases t with
  | literal v type =>
    cases t' with
    | literal v' type' =>
      obtain ⟨hvalue, -⟩ := h
      cases v <;> cases v' <;> first
        | exact absurd hvalue id
        | exact congrArg some hending
        | rfl
    | _ => exact absurd h Bool.false_ne_true
  | _ =>
    cases t' with
    | literal => exact absurd h (by simp [Matches, SameNode, label, sameValue])
    | _ => rfl

/-! ## Argument lists -/

variable {ts ts' : List Term}

theorem fits_of_sameValue (h : t.sameValue t' = true) (hfloat : Alike SameFloatText t t') :
    Alike Fits t t' :=
  ((sameValue_iff_alike.1 h).and hfloat).lengths.mono fun _ _ hu =>
    fits_of_sameNode hu.1.1 hu.1.2 hu.2

theorem fits_of_sameShape (h : SameShape t t') : Alike Fits t t' :=
  h.lengths.mono fun _ _ hu => fits_of_matches hu.1 hu.2

theorem sameShape_of_sameValue (h : t.sameValue t' = true) (hending : Alike SameEnding t t') :
    SameShape t t' :=
  ((sameValue_iff_alike.1 h).and hending).mono fun _ _ hu => matches_of_sameNode hu.1 hu.2

theorem sameValue_of_sameShape {tables : List TableSymbol} (h : SameShape t t')
    (hending : Alike SameEnding t t') (hresolved : ∀ u ∈ t.subterms, u.ResolvedIn tables)
    (hresolved' : ∀ u ∈ t'.subterms, u.ResolvedIn tables) : t.sameValue t' = true :=
  sameValue_iff_alike.2 ((Alike.and h hending).map hresolved hresolved' fun _ _ hu hu₁ hu₂ =>
    sameNode_of_matches hu.1 hu.2 hu₁ hu₂)

theorem sameFloatText_of_sameShape (h : SameShape t t') (hending : Alike SameEnding t t') :
    Alike SameFloatText t t' :=
  (Alike.and h hending).mono fun _ _ hu => sameFloatText_of_matches hu.1 hu.2

/-- Calls with the same text whose arguments fit have the same name, and their arguments are equal
    node by node. -/
theorem accumulatorName_inj {name name' : String} (h : List.Forall₂ (Alike Fits) ts ts')
    (hcalls : ∀ t ∈ ts, ∀ u ∈ t.subterms, u.ShowsCall)
    (hcalls' : ∀ t ∈ ts', ∀ u ∈ t.subterms, u.ShowsCall)
    (htext : accumulatorName name ts = accumulatorName name' ts') :
    name = name' ∧ List.Forall₂ (Alike SameEnding) ts ts' := by
  have haligned : List.Forall₂ Aligned ts ts' := by
    refine List.forall₂_iff_zip.2 ⟨h.length_eq, fun hc => ?_⟩
    obtain ⟨hmem, hmem'⟩ := List.of_mem_zip hc
    exact aligned_of_fits (List.forall₂_zip h hc) (hcalls _ hmem) (hcalls' _ hmem')
  have hcall (name : String) (ts : List Term) : (accumulatorName name ts).toList =
      (name ++ "(").toList ++ pieces (listLeads ts) ts ++ [')'] := by
    simp [accumulatorName, pieces_listLeads]
  have hclean (name : String) : Clean (name ++ "(").toList := by
    simp [Clean, List.getLast?_append]
  have hchars := congrArg String.toList htext
  rw [hcall, hcall, ← listLeads_congr h.length_eq] at hchars
  obtain ⟨hstart, hnodes⟩ := parts_aligned (head_leads (.list ts default)) endsInSpace_listLeads
    (length_listLeads ts) haligned (hclean name) (hclean name') (List.append_cancel_right hchars)
  refine ⟨String.toList_inj.1 ?_, hnodes⟩
  simpa using hstart

end Term

/-! ## Aggregates of a block -/

namespace BlockBound

variable {Named : String → Prop} {s : Scopes} {b : Block} {m : AggregateRef} {args : List Term}
variable {type : DataType}

theorem mem_output (h : .aggregate m args type ∈ b.aggregates) :
    ∃ t ∈ b.outputs, .aggregate m args type ∈ t.aggregates ∧
      ∀ a ∈ args, ∀ u ∈ a.subterms, u ∈ t.subterms := by
  obtain ⟨t, ht, hg⟩ := List.mem_flatMap.1 h
  refine ⟨t, ht, hg, fun a ha u hu => ?_⟩
  have hin : u ∈ (Term.aggregate m args type).subterms := Term.mem_subterms.2 (.inr ⟨a, ha, hu⟩)
  exact Term.mem_subterms_trans hin (Term.mem_aggregates.1 hg).1

/-- The aggregates of a block are rendered as their calls, those inside arguments included. -/
theorem showsCall (hbound : BlockBound Named s b) (h : .aggregate m args type ∈ b.aggregates) :
    m.accumulator = accumulatorName m.name args ∧ ∀ a ∈ args, ∀ u ∈ a.subterms, u.ShowsCall := by
  have hcall {t : Term} (ht : t ∈ b.outputs) {m : AggregateRef} {args : List Term}
      {type : DataType} (hg : .aggregate m args type ∈ t.aggregates) :
      m.accumulator = accumulatorName m.name args := by
    obtain ⟨_, _, _, hupdates, -⟩ := hbound.complete t ht _ hg
    exact hupdates.2.2.2.1
  obtain ⟨t, ht, hg, hsub⟩ := mem_output h
  refine ⟨hcall ht hg, fun a ha u hu => ?_⟩
  cases u with
  | aggregate m' args' type' => exact hcall ht (Term.mem_aggregates.2 ⟨hsub a ha _ hu, rfl⟩)
  | _ => trivial

/-- The arguments of all aggregates of a block read the same tables. -/
theorem argsResolved (hbound : BlockBound Named s b) :
    ∃ tables : List TableSymbol, ∀ {m : AggregateRef} {args : List Term} {type : DataType},
      .aggregate m args type ∈ b.aggregates →
      ∀ a ∈ args, ∀ u ∈ a.subterms, u.ResolvedIn tables := by
  obtain ⟨tables, -, hresolved⟩ := hbound.resolved
  refine ⟨tables, fun h a ha u hu => ?_⟩
  obtain ⟨t, ht, hg⟩ := List.mem_flatMap.1 h
  exact hresolved t ht _ hg u (Term.mem_subterms.2 (.inr ⟨a, ha, hu⟩))

end BlockBound

namespace Resolve

/-- Two aggregates of a block that share an accumulator are the same aggregate, with doubles written
    alike, exactly when they have the same schema and signature and arguments of the same shape. -/
theorem sameAggregate_iff_sameShape {env : Env} {q : Query} {analysis : Analysis}
    {requests : List TableRequest} (h : analyze env q = (.ok analysis, requests)) {b : Block}
    (hb : b ∈ BoundQuery.blocksOf analysis.query.queries) {m m' : AggregateRef}
    {args args' : List Term} {type type' : DataType}
    (hg : .aggregate m args type ∈ b.aggregates) (hg' : .aggregate m' args' type' ∈ b.aggregates)
    (hshared : m.accumulator = m'.accumulator) :
    ((m.name = m'.name ∧ m.schema = m'.schema ∧ m.signature = m'.signature ∧
        Term.sameValues args args' = true) ∧
      List.Forall₂ (Term.Alike Term.SameFloatText) args args') ↔
    m.schema = m'.schema ∧ m.signature = m'.signature ∧
      List.Forall₂ Term.SameShape args args' := by
  obtain ⟨-, hsealed, -⟩ : _ ∧ Sealed (fun _ => True) analysis.scopes 0 _ _ ∧ _ :=
    analyze_sealed (fun _ => trivial) (fun _ _ => trivial) h
  obtain ⟨-, -, hbound⟩ := hsealed.blocks b hb
  obtain ⟨tables, hresolved⟩ := hbound.argsResolved
  obtain ⟨hname, hcalls⟩ := hbound.showsCall hg
  obtain ⟨hname', hcalls'⟩ := hbound.showsCall hg'
  have htext : accumulatorName m.name args = accumulatorName m'.name args' := by
    rw [← hname, ← hname', hshared]
  constructor
  · rintro ⟨⟨-, hschema, hsignature, hsame⟩, hfloat⟩
    have hvalues := Term.sameValues_iff.1 hsame
    have hfits := hvalues.mp (fun _ _ hvalue hfloat => Term.fits_of_sameValue hvalue hfloat) hfloat
    obtain ⟨-, hnodes⟩ := Term.accumulatorName_inj hfits hcalls hcalls' htext
    exact ⟨hschema, hsignature,
      hvalues.mp (fun _ _ hvalue hending => Term.sameShape_of_sameValue hvalue hending) hnodes⟩
  · rintro ⟨hschema, hsignature, hshapes⟩
    have hfits := hshapes.imp fun _ _ hshape => Term.fits_of_sameShape hshape
    obtain ⟨hnames, hnodes⟩ := Term.accumulatorName_inj hfits hcalls hcalls' htext
    refine ⟨⟨hnames, hschema, hsignature, Term.sameValues_iff.2 ?_⟩, ?_⟩
    · refine List.forall₂_iff_zip.2 ⟨hshapes.length_eq, fun hc => ?_⟩
      obtain ⟨hmem, hmem'⟩ := List.of_mem_zip hc
      exact Term.sameValue_of_sameShape (List.forall₂_zip hshapes hc) (List.forall₂_zip hnodes hc)
        (hresolved hg _ hmem) (hresolved hg' _ hmem')
    · exact hshapes.mp (fun _ _ hshape hending =>
        Term.sameFloatText_of_sameShape hshape hending) hnodes

/-- Whether two aggregates of one schema and signature share an accumulator though their arguments
    differ. -/
def mergedUnlike : Term → Term → Bool
  | .aggregate m args _, .aggregate m' args' _ =>
    m.accumulator = m'.accumulator && m.schema = m'.schema && m.signature = m'.signature &&
      !Term.sameValues args args'
  | _, _ => false

/-- Stands for `select Sum((Population + Money) * Id), Sum(Population + Money * Id)
    from #A.entities() a` -/
def bracketedSums : Query :=
  .ofSelect (((Select.empty.addExpr (.ofCall "Sum" [.binary .mul (.paren (.binary .add
      (.identifier "Population") (.identifier "Money"))) (.identifier "Id")])).addExpr
    (.ofCall "Sum" [.binary .add (.identifier "Population") (.binary .mul
      (.identifier "Money") (.identifier "Id"))])).withSource (Sample.entitiesAs "a"))

/-- Brackets are not shown, so two sums over different arguments share an accumulator. -/
theorem sameAggregate_iff_sameShape_bracketedSums :
    ∃ analysis requests, analyze ⟨Sample.catalog, default⟩ bracketedSums =
        (.ok analysis, requests) ∧
      ∃ b ∈ BoundQuery.blocksOf analysis.query.queries, ∃ m args type m' args' type',
        .aggregate m args type ∈ b.aggregates ∧ .aggregate m' args' type' ∈ b.aggregates ∧
        m.accumulator = m'.accumulator ∧ Term.sameValues args args' = false ∧
        ¬List.Forall₂ Term.SameShape args args' := by
  obtain ⟨analysis, requests, h, hcheck⟩ := exists_ok_of_check
    (analyze ⟨Sample.catalog, default⟩ bracketedSums)
    (fun analysis => (BoundQuery.blocksOf analysis.query.queries).any fun b =>
      b.aggregates.any fun g => b.aggregates.any fun g' => mergedUnlike g g')
    (by decide +kernel)
  obtain ⟨b, hb, hpair⟩ := List.any_eq_true.1 hcheck
  obtain ⟨g, hg, hpair⟩ := List.any_eq_true.1 hpair
  obtain ⟨g', hg', hmerged⟩ := List.any_eq_true.1 hpair
  refine ⟨analysis, requests, h, b, hb, ?_⟩
  cases g with
  | aggregate m args type =>
    cases g' with
    | aggregate m' args' type' =>
      simp only [mergedUnlike, Bool.and_eq_true, decide_eq_true_eq, Bool.not_eq_true'] at hmerged
      obtain ⟨⟨⟨hshared, hschema⟩, hsignature⟩, hdiffer⟩ := hmerged
      refine ⟨m, args, type, m', args', type', hg, hg', hshared, hdiffer, fun hshapes => ?_⟩
      have hsame := (sameAggregate_iff_sameShape h hb hg hg' hshared).2
        ⟨hschema, hsignature, hshapes⟩
      rw [hsame.1.2.2.2] at hdiffer
      cases hdiffer
    | _ => cases hmerged
  | _ => cases hmerged

end Resolve

end SchemaQuery
