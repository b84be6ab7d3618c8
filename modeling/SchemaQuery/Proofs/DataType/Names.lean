-- SUMMARY: Type names read back: what reading a name can give, and that the rendering of such a type gives it again.
import Mathlib.Data.List.DropRight
import SchemaQuery.Proofs.DataType.Normal

/-!
# Type names

Reading looks at the end of a name, so a suffix after any text acts on the type
that the text denotes (`parseChars_question`, `parseChars_brackets`), and blanks
around a text do not matter (`parseChars_of_trim`). The types that reading can
give are the plain ones with arrays and single nullability on top (`isNamed`), and
the rendering of such a type is a name of it (`parse_render`).
-/

namespace SchemaQuery

namespace Text

variable {cs : List Char} {c : Char}

theorem dropWhile_concat (hc : isBlank c = false) :
    (cs ++ [c]).dropWhile isBlank = cs.dropWhile isBlank ++ [c] := by
  rw [List.dropWhile_append]
  split
  · rename_i hempty
    rw [List.isEmpty_iff.1 hempty]
    simp [hc]
  · rfl

/-- Trimming stops at a last character that is no blank. -/
theorem trim_concat (hc : isBlank c = false) : trim (cs ++ [c]) = cs.dropWhile isBlank ++ [c] := by
  rw [trim, dropWhile_concat hc]
  exact List.rdropWhile_concat_neg _ _ c (by simp [hc])

theorem trim_dropWhile (cs : List Char) : trim (cs.dropWhile isBlank) = trim cs := by
  rw [trim, List.dropWhile_idempotent, ← trim]

end Text

namespace DataType

variable {t : DataType} {cs inner : List Char}

/-! ## The steps of reading -/

theorem dropSuffix?_append (suffix cs : List Char) :
    dropSuffix? suffix (cs ++ suffix) = some cs := by
  have hsuffix : suffix.isSuffixOf (cs ++ suffix) := List.isSuffixOf_iff_suffix.2 ⟨cs, rfl⟩
  rw [dropSuffix?, if_pos hsuffix]
  simp

theorem dropSuffix?_concat {c d : Char} (hne : c ≠ d) (cs : List Char) :
    dropSuffix? [c] (cs ++ [d]) = none := by
  refine if_neg fun hsuffix => ?_
  obtain ⟨before, hbefore⟩ := List.isSuffixOf_iff_suffix.1 hsuffix
  exact hne (List.singleton_inj.1 (List.append_inj' hbefore rfl).2)

theorem parseChars_of_question (h : dropSuffix? ['?'] (Text.trim cs) = some inner) :
    parseChars cs = (parseChars inner).map toNullable := by
  rw [parseChars]
  split <;> simp_all

theorem parseChars_of_brackets (hquestion : dropSuffix? ['?'] (Text.trim cs) = none)
    (h : dropSuffix? ['[', ']'] (Text.trim cs) = some inner) :
    parseChars cs = (parseChars inner).map array := by
  rw [parseChars]
  split
  · simp_all
  · split <;> simp_all

theorem parseChars_of_plain (hquestion : dropSuffix? ['?'] (Text.trim cs) = none)
    (hbrackets : dropSuffix? ['[', ']'] (Text.trim cs) = none) :
    parseChars cs = .ok t ↔ plain? (Text.lowercase (String.ofList (Text.trim cs))) = some t := by
  rw [parseChars]
  split
  · simp_all
  · split
    · simp_all
    · split <;> simp_all

/-- Texts that differ in the blanks around them denote the same type. -/
theorem parseChars_of_trim {cs ds : List Char} (h : Text.trim cs = Text.trim ds) :
    parseChars cs = .ok t ↔ parseChars ds = .ok t := by
  cases hquestion : dropSuffix? ['?'] (Text.trim cs) with
  | some inner =>
    have hquestion' : dropSuffix? ['?'] (Text.trim ds) = some inner := h ▸ hquestion
    rw [parseChars_of_question hquestion, parseChars_of_question hquestion']
  | none =>
    have hquestion' : dropSuffix? ['?'] (Text.trim ds) = none := h ▸ hquestion
    cases hbrackets : dropSuffix? ['[', ']'] (Text.trim cs) with
    | some inner =>
      have hbrackets' : dropSuffix? ['[', ']'] (Text.trim ds) = some inner := h ▸ hbrackets
      rw [parseChars_of_brackets hquestion hbrackets, parseChars_of_brackets hquestion' hbrackets']
    | none =>
      have hbrackets' : dropSuffix? ['[', ']'] (Text.trim ds) = none := h ▸ hbrackets
      rw [parseChars_of_plain hquestion hbrackets, parseChars_of_plain hquestion' hbrackets', h]

/-! ## Suffixes -/

theorem parseChars_question :
    parseChars (cs ++ ['?']) = .ok t ↔ ∃ u, parseChars cs = .ok u ∧ u.toNullable = t := by
  have hinner : dropSuffix? ['?'] (Text.trim (cs ++ ['?'])) = some (cs.dropWhile Text.isBlank) := by
    rw [Text.trim_concat (by decide), dropSuffix?_append]
  rw [parseChars_of_question hinner, except_map_ok]
  simp only [parseChars_of_trim (Text.trim_dropWhile cs)]

theorem parseChars_brackets :
    parseChars (cs ++ ['[', ']']) = .ok t ↔ ∃ u, parseChars cs = .ok u ∧ array u = t := by
  have htrim : Text.trim (cs ++ ['[', ']']) = cs.dropWhile Text.isBlank ++ ['[', ']'] := by
    rw [List.append_cons, Text.trim_concat (by decide), Text.dropWhile_concat (by decide),
      ← List.append_cons]
  have hquestion : dropSuffix? ['?'] (Text.trim (cs ++ ['[', ']'])) = none := by
    rw [htrim, List.append_cons, dropSuffix?_concat (by decide)]
  have hinner : dropSuffix? ['[', ']'] (Text.trim (cs ++ ['[', ']'])) =
      some (cs.dropWhile Text.isBlank) := by
    rw [htrim, dropSuffix?_append]
  rw [parseChars_of_brackets hquestion hinner, except_map_ok]
  simp only [parseChars_of_trim (Text.trim_dropWhile cs)]

/-! ## Renderings -/

/-- The rendering of a type that has a name is a name of it. -/
theorem parse_render (h : t.isNamed) : parse t.render = .ok t := by
  unfold parse
  induction t with
  | array e ih =>
    rw [render, String.toList_append]
    exact parseChars_brackets.2 ⟨e, ih h, rfl⟩
  | nullable u ih =>
    simp only [isNamed, Bool.and_eq_true, Bool.not_eq_true'] at h
    have hu : u.toNullable = .nullable u := by
      cases u <;> simp_all [toNullable, isNullable]
    rw [render, String.toList_append]
    exact parseChars_question.2 ⟨u, ih h.2, hu⟩
  | null | sequence | entity => cases h
  | _ => exact (parseChars_of_plain (by decide) (by decide)).2 (by decide)

/-- What reading a name gives has a name, makes nothing nullable twice and is read again from its
    rendering; so is every type that has a name. -/
theorem parse_readsBack :
    (∀ name t, parse name = .ok t → t.isNamed ∧ t.isNormal ∧ parse t.render = .ok t) ∧
      ∀ t : DataType, t.isNamed → parse t.render = .ok t := by
  refine ⟨fun name t h => ?_, fun t h => parse_render h⟩
  have hnamed : t.isNamed := isNamed_parseChars h
  exact ⟨hnamed, isNormal_of_isNamed hnamed, parse_render hnamed⟩

theorem parse_readsBack_suffixes :
    parse " BIGINT ?? [] ? " = .ok (.nullable (.array (.nullable .long))) ∧
      parse "long?[]?" = .ok (.nullable (.array (.nullable .long))) ∧
      parse "guid[]?[]" = .ok (.array (.nullable (.array .guid))) := by
  have h : parse " BIGINT ?? [] ? " = .ok (.nullable (.array (.nullable .long))) := by
    decide +kernel
  exact ⟨h, (parse_readsBack.1 _ _ h).2.2,
    parse_readsBack.2 (.array (.nullable (.array .guid))) (by decide)⟩

end DataType

end SchemaQuery
