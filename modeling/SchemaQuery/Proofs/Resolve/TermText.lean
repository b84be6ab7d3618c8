-- SUMMARY: What the text of a term tells about it, once the form of its tree is known.
import SchemaQuery.Proofs.Resolve.Binding
import SchemaQuery.Proofs.Term.Alike

/-!
# Texts of terms

The text of a term does not determine the term: brackets are not shown, nor are
types, schemas and the alias behind a call. But when two terms have the same form
and texts of the same length at corresponding nodes, then equal texts are equal
node by node (`aligned_of_fits`). Texts are compared from the right, since what
stands before a part of a term never ends with the dot of a qualified column.
-/

namespace SchemaQuery.Term

/-! ## The text of one node -/

/-- The separators before the items of a list. -/
def listLeads : List Term → List String
  | [] => []
  | _ :: ts => "" :: ts.map fun _ => ", "

/-- What is written before the parts of a term. -/
def opening : Term → String
  | .unary op _ _ => op.apply ""
  | .call m _ _ => m.name ++ "("
  | .aggregate m _ _ => m.name ++ "("
  | .case .. => "case"
  | .cast .. => "cast("
  | .list .. => "("
  | _ => ""

/-- What is written right before each part of a term. -/
def leads : Term → List String
  | .property .. | .unary .. | .cast .. | .nullAsFalse .. => [""]
  | .binary op _ _ _ => ["", " " ++ op.symbol ++ " "]
  | .call _ args _ | .aggregate _ args _ | .list args _ => listLeads args
  | .case branches otherwise _ =>
    branches.flatMap (fun _ => [" when ", " then "]) ++ (otherwise.map fun _ => " else ").toList
  | _ => []

/-- What is written after the parts of a term; all of its text when it has none. -/
def ending : Term → String
  | .property _ name _ => "." ++ name
  | .binary .. | .unary .. | .nullAsFalse .. => ""
  | .call .. | .aggregate .. | .list .. => ")"
  | .case .. => " end"
  | .cast _ target _ => " as " ++ target.render ++ ")"
  | t => t.render

/-- Parts, each after its lead. -/
def pieces : List String → List Term → List Char
  | l :: ls, t :: ts => l.toList ++ (t.render.toList ++ pieces ls ts)
  | _, _ => []

/-- An aggregate that is rendered as its call; every other node. -/
def ShowsCall : Term → Prop
  | .aggregate m args _ => m.accumulator = accumulatorName m.name args
  | _ => True

theorem renderAll_eq (ts : List Term) : renderAll ts = ts.map (·.render) := by
  induction ts with
  | nil => rfl
  | cons t ts ih => simp [renderAll, ih]

theorem length_listLeads (ts : List Term) : (listLeads ts).length = ts.length := by
  cases ts <;> simp [listLeads]

theorem length_leads (t : Term) : t.leads.length = t.children.length := by
  cases t with
  | case branches otherwise type =>
    simp only [leads, children, List.length_append, List.length_flatMap]
    cases otherwise <;> simp
  | _ => simp [leads, children, length_listLeads]

theorem pieces_append {ls ls' : List String} {ts ts' : List Term} (h : ls.length = ts.length) :
    pieces (ls ++ ls') (ts ++ ts') = pieces ls ts ++ pieces ls' ts' := by
  induction ls generalizing ts with
  | nil =>
    obtain rfl := List.length_eq_zero_iff.1 h.symm
    rfl
  | cons l ls ih =>
    cases ts with
    | nil => cases h
    | cons t ts => simp [pieces, ih (Nat.succ.inj h)]

theorem pieces_commas (t : Term) (ts : List Term) :
    t.render.toList ++ pieces (ts.map fun _ => ", ") ts =
      (", ".intercalate ((t :: ts).map (·.render))).toList := by
  induction ts generalizing t with
  | nil => simp [pieces]
  | cons u us ih =>
    have hcons := String.intercalate_cons_of_ne_nil (s := ", ") (t := t.render)
      (by simp : (u :: us).map (·.render) ≠ [])
    rw [List.map_cons, List.map_cons, hcons, String.toList_append, String.toList_append, ← ih]
    simp [pieces]

theorem pieces_listLeads (ts : List Term) :
    pieces (listLeads ts) ts = (", ".intercalate (ts.map (·.render))).toList := by
  cases ts with
  | nil => rfl
  | cons t ts => simpa [listLeads, pieces] using pieces_commas t ts

theorem pieces_branches (bs : List (Term × Term)) :
    pieces (bs.flatMap fun _ => [" when ", " then "]) (bs.flatMap fun b => [b.1, b.2]) =
      (String.join ((renderBranches bs).map fun b => " when " ++ b.1 ++ " then " ++ b.2)).toList := by
  induction bs with
  | nil => rfl
  | cons b bs ih => simp_all [pieces, renderBranches]

/-- The text of a term is made of the texts of its parts and its own. -/
theorem toList_render {t : Term} (h : t.ShowsCall) :
    t.render.toList = t.opening.toList ++ (pieces t.leads t.children ++ t.ending.toList) := by
  cases t with
  | unary op => cases op <;> simp [render, opening, leads, ending, children, pieces, UnaryOp.apply]
  | call m args => simp [render, opening, leads, ending, children, pieces_listLeads, renderAll_eq]
  | list items => simp [render, opening, leads, ending, children, pieces_listLeads, renderAll_eq]
  | aggregate m args =>
    have hname : m.accumulator = accumulatorName m.name args := h
    simp [render, hname, accumulatorName, opening, leads, ending, children, pieces_listLeads]
  | case branches otherwise =>
    have hlength : (branches.flatMap fun _ => [" when ", " then "]).length =
        (branches.flatMap fun b => [b.1, b.2]).length := by
      simp [List.length_flatMap]
    have hbranches := pieces_branches branches
    cases otherwise with
    | none =>
      simp [render, renderCase, opening, leads, ending, children, hbranches]
    | some e =>
      simp [render, renderCase, opening, leads, ending, children, pieces_append hlength, hbranches,
        pieces]
  | _ => simp [render, opening, leads, ending, children, pieces]

/-! ## Comparing texts from the right -/

/-- A text that does not end with a dot. -/
def Clean (P : List Char) : Prop := P.getLast? ≠ some '.'

theorem Clean.append {P Q : List Char} (hP : Clean P) (hQ : Clean Q) : Clean (P ++ Q) := by
  unfold Clean at hP hQ ⊢
  rw [List.getLast?_append]
  cases hlast : Q.getLast? with
  | none => exact hP
  | some c => rwa [hlast] at hQ

/-- What stands before the parts of a term does not end with a dot. -/
theorem clean_opening (t : Term) : Clean t.opening.toList := by
  cases t with
  | unary op => cases op <;> simp [opening, Clean, UnaryOp.apply]
  | _ => simp [opening, Clean, List.getLast?_append]

def EndsInSpace (l : String) : Prop := ∃ Q, l.toList = Q ++ [' ']

theorem EndsInSpace.clean {l : String} (h : EndsInSpace l) (P : List Char) :
    Clean (P ++ l.toList) := by
  obtain ⟨Q, hl⟩ := h
  simp [Clean, hl, List.getLast?_append]

theorem endsInSpace_case {branches : List (Term × Term)} {otherwise : Option Term}
    {type : DataType} : ∀ l ∈ (case branches otherwise type).leads, EndsInSpace l := by
  intro l hl
  simp only [leads, List.mem_append, List.mem_flatMap, List.mem_cons, List.not_mem_nil, or_false,
    Option.mem_toList, Option.map_eq_some_iff] at hl
  rcases hl with ⟨-, -, rfl | rfl⟩ | ⟨-, -, rfl⟩
  · exact ⟨" when".toList, rfl⟩
  · exact ⟨" then".toList, rfl⟩
  · exact ⟨" else".toList, rfl⟩

theorem endsInSpace_listLeads {ts : List Term} : ∀ l ∈ (listLeads ts).tail, EndsInSpace l := by
  intro l hl
  cases ts with
  | nil => cases hl
  | cons t ts =>
    obtain ⟨-, -, rfl⟩ := List.mem_map.1 hl
    exact ⟨",".toList, rfl⟩

/-- A part of a term stands after a space, unless it is the first one. -/
theorem endsInSpace_tail (t : Term) : ∀ l ∈ t.leads.tail, EndsInSpace l := by
  cases t with
  | binary op =>
    intro l hl
    obtain rfl := List.mem_singleton.1 hl
    exact ⟨(" " ++ op.symbol).toList, String.toList_append ..⟩
  | call | aggregate | list => exact endsInSpace_listLeads
  | case => exact fun l hl => endsInSpace_case l (List.mem_of_mem_tail hl)
  | _ =>
    intro l hl
    cases hl

/-- The first part of a term stands after a space or right behind the opening. -/
theorem head_leads (t : Term) : ∀ l ∈ t.leads.head?, l = "" ∨ EndsInSpace l := by
  intro l hl
  cases t with
  | call _ args | aggregate _ args | list args =>
    cases args with
    | nil => cases hl
    | cons => exact .inl (Option.some.inj hl).symm
  | case => exact .inr (endsInSpace_case l (List.mem_of_mem_head? hl))
  | literal | column | outputField | tableColumn | groupField => cases hl
  | _ => exact .inl (Option.some.inj hl).symm

/-! ## Aligned terms -/

def SameEnding (t t' : Term) : Prop := t.ending = t'.ending

/-- Wherever the texts of both terms end together, they start together and are equal node by
    node. -/
def Aligned (t t' : Term) : Prop :=
  ∀ P P', Clean P → Clean P' → P ++ t.render.toList = P' ++ t'.render.toList →
    P = P' ∧ Alike SameEnding t t'

/-- Nodes whose texts can be told apart from the texts around them: they have the same length, or
    only one of them starts with a qualifier. -/
structure Fits (t t' : Term) : Prop where
  opening : t.opening = t'.opening
  leads : t.leads = t'.leads
  ending : t.ending.length = t'.ending.length ∨ t.opening = "" ∧ t.leads = [] ∧
    ∃ a, t.ending = a ++ "." ++ t'.ending ∨ t'.ending = a ++ "." ++ t.ending

variable {t t' : Term} {ts ts' : List Term} {P P' : List Char}

theorem pieces_aligned {ls : List String} (hls : ∀ l ∈ ls, EndsInSpace l)
    (hlength : ls.length = ts.length) (h : List.Forall₂ Aligned ts ts')
    (htext : P ++ pieces ls ts = P' ++ pieces ls ts') :
    P = P' ∧ List.Forall₂ (Alike SameEnding) ts ts' := by
  induction h generalizing ls P P' with
  | nil =>
    obtain rfl := List.length_eq_zero_iff.1 hlength
    exact ⟨by simpa [pieces] using htext, .nil⟩
  | @cons t t' ts ts' ht _ ih =>
    cases ls with
    | nil => cases hlength
    | cons l ls =>
      have hl := hls l (List.mem_cons_self ..)
      simp only [pieces, ← List.append_assoc] at htext
      obtain ⟨hinit, hrest⟩ := ih (fun l hl => hls l (List.mem_cons_of_mem _ hl))
        (Nat.succ.inj hlength) htext
      obtain ⟨hlead, hfirst⟩ := ht _ _ (hl.clean P) (hl.clean P') hinit
      exact ⟨List.append_cancel_right hlead, .cons hfirst hrest⟩

/-- Parts that are aligned one by one are aligned together. -/
theorem parts_aligned {ls : List String} (hhead : ∀ l ∈ ls.head?, l = "" ∨ EndsInSpace l)
    (htail : ∀ l ∈ ls.tail, EndsInSpace l) (hlength : ls.length = ts.length)
    (h : List.Forall₂ Aligned ts ts') (hP : Clean P) (hP' : Clean P')
    (htext : P ++ pieces ls ts = P' ++ pieces ls ts') :
    P = P' ∧ List.Forall₂ (Alike SameEnding) ts ts' := by
  cases ls with
  | nil => exact pieces_aligned (by simp) hlength h htext
  | cons l ls =>
    rcases hhead l rfl with rfl | hl
    · cases h with
      | nil => cases hlength
      | cons ht hts =>
        simp only [pieces, String.toList_empty, List.nil_append, ← List.append_assoc] at htext
        obtain ⟨hinit, hrest⟩ := pieces_aligned htail (Nat.succ.inj hlength) hts htext
        obtain ⟨hstart, hfirst⟩ := ht _ _ hP hP' hinit
        exact ⟨hstart, .cons hfirst hrest⟩
    · exact pieces_aligned (List.forall_mem_cons.2 ⟨hl, htail⟩) hlength h htext

/-- A qualified column and a bare one never end together behind texts that are not qualifiers. -/
theorem ne_of_qualifier {a n : String} (hP : Clean P) :
    P ++ n.toList ≠ P' ++ (a ++ "." ++ n).toList := by
  intro htext
  have hend : P = P' ++ (a ++ ".").toList := by
    have hsplit : (a ++ "." ++ n).toList = (a ++ ".").toList ++ n.toList := String.toList_append
    rw [hsplit, ← List.append_assoc] at htext
    exact List.append_cancel_right htext
  rw [hend] at hP
  simp [Clean, List.getLast?_append] at hP

/-- Equal texts of terms of the same form are equal node by node. -/
theorem aligned_of_fits (h : Alike Fits t t') (hcalls : ∀ u ∈ t.subterms, u.ShowsCall)
    (hcalls' : ∀ u ∈ t'.subterms, u.ShowsCall) : Aligned t t' := by
  induction h with
  | @node t t' hfits hlength _ ih =>
    intro P P' hP hP' htext
    obtain ⟨hself, hparts⟩ := forall_subterms.1 hcalls
    obtain ⟨hself', hparts'⟩ := forall_subterms.1 hcalls'
    have hchildren : List.Forall₂ Aligned t.children t'.children := by
      refine List.forall₂_iff_zip.2 ⟨hlength, fun hc => ?_⟩
      obtain ⟨hmem, hmem'⟩ := List.of_mem_zip hc
      exact ih _ _ hc (hparts _ hmem) (hparts' _ hmem')
    rw [toList_render hself, toList_render hself', ← hfits.opening, ← hfits.leads] at htext
    rcases hfits.ending with hending | ⟨hopening, hleads, a, hending | hending⟩
    · simp only [← List.append_assoc] at htext
      obtain ⟨hinit, hlast⟩ := List.append_inj' htext (by
        rwa [String.length_toList, String.length_toList])
      obtain ⟨hstart, hnodes⟩ := parts_aligned (head_leads t) (endsInSpace_tail t)
        (length_leads t) hchildren (hP.append (clean_opening t)) (hP'.append (clean_opening t)) hinit
      exact ⟨List.append_cancel_right hstart,
        .of_children (String.toList_inj.1 hlast) hnodes⟩
    · simp only [hopening, hleads, hending, pieces, String.toList_empty, List.nil_append] at htext
      exact absurd htext.symm (ne_of_qualifier hP')
    · simp only [hopening, hleads, hending, pieces, String.toList_empty, List.nil_append] at htext
      exact absurd htext (ne_of_qualifier hP)

end SchemaQuery.Term
