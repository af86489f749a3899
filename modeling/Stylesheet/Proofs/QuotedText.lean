import Stylesheet.Value

/-!
Quoted strings end where they end. A reader that knows nothing but the rule of the backslash finds
the closing quote of a string that was written, whatever the content is and whatever follows, and
recovers the content. So no content closes its own quotes, and the text tells what was written.
-/

namespace Stylesheet

namespace Text

/-- Reads a literal from behind its opening quote to the first quote that no backslash stands for:
the content, and what is left. A backslash stands for the character after it. -/
def scanContent? : List Char → Option (List Char × List Char)
  | [] => none
  | '"' :: rest => some ([], rest)
  | ['\\'] => none
  | '\\' :: c :: rest => (scanContent? rest).map (Prod.map (c :: ·) id)
  | c :: rest => (scanContent? rest).map (Prod.map (c :: ·) id)

/-- Reads a literal that the text begins with: its content, and the text behind it. -/
def scanLiteral? (s : String) : Option (String × String) :=
  match s.toList with
  | '"' :: rest => (scanContent? rest).map (Prod.map String.ofList String.ofList)
  | _ => none

/-- Puts other characters for each occurrence of one. -/
def replaceAll (old : Char) (new : List Char) (cs : List Char) : List Char :=
  cs.flatMap fun c => if c = old then new else [c]

/-- Escaping is two replacements. The backslashes come first, so that those of the second stay. -/
theorem escape_eq_replaceAll (cs : List Char) :
    escape cs = replaceAll '"' ['\\', '"'] (replaceAll '\\' ['\\', '\\'] cs) := by
  induction cs with
  | nil => rfl
  | cons c rest ih =>
      rw [escape, ih]
      by_cases hquote : c = '"'
      · simp [replaceAll, hquote]
      · by_cases hslash : c = '\\'
        · simp [replaceAll, hslash]
        · simp [replaceAll, hquote, hslash]

theorem scanContent?_plain {c : Char} (hquote : c ≠ '"') (hslash : c ≠ '\\') (rest : List Char) :
    scanContent? (c :: rest) = (scanContent? rest).map (Prod.map (c :: ·) id) := by
  rw [scanContent?.eq_def]
  split <;> simp_all

theorem scanContent?_escape (content behind : List Char) :
    scanContent? (escape content ++ '"' :: behind) = some (content, behind) := by
  induction content with
  | nil => rfl
  | cons c rest ih =>
      rw [escape]
      split
      · rw [List.cons_append, List.cons_append, scanContent?, ih]
        rfl
      · next hplain =>
          rw [not_or] at hplain
          rw [List.cons_append, scanContent?_plain hplain.1 hplain.2, ih]
          rfl

/-- What has been found is found again if the text goes on. -/
theorem scanContent?_append {cs content behind : List Char}
    (h : scanContent? cs = some (content, behind)) (more : List Char) :
    scanContent? (cs ++ more) = some (content, behind ++ more) := by
  fun_induction scanContent? cs generalizing content behind with
  | case1 => cases h
  | case2 rest =>
      cases h
      rfl
  | case3 => cases h
  | case4 c rest ih =>
      obtain ⟨⟨content, behind⟩, hrest, hpair⟩ := Option.map_eq_some_iff.mp h
      cases hpair
      simp [scanContent?, ih hrest]
  | case5 c rest hquote hlast hslash ih =>
      have hslash : c ≠ '\\' := by
        rintro rfl
        cases rest with
        | nil => exact hlast rfl rfl
        | cons d rest => exact hslash d rest rfl rfl
      obtain ⟨⟨content, behind⟩, hrest, hpair⟩ := Option.map_eq_some_iff.mp h
      cases hpair
      rw [List.cons_append, scanContent?_plain hquote hslash, ih hrest]
      rfl

theorem scanLiteral?_of_toList {s : String} {rest : List Char} (h : s.toList = '"' :: rest) :
    scanLiteral? s = (scanContent? rest).map (Prod.map String.ofList String.ofList) := by
  simp only [scanLiteral?, h]

theorem scanLiteral?_quote_append (s t : String) : scanLiteral? (quote s ++ t) = some (s, t) := by
  have htext : (quote s ++ t).toList = '"' :: (escape s.toList ++ '"' :: t.toList) := by
    simp [quote]
  rw [scanLiteral?_of_toList htext, scanContent?_escape]
  simp

theorem scanLiteral?_append {s content behind : String}
    (h : scanLiteral? s = some (content, behind)) (more : String) :
    scanLiteral? (s ++ more) = some (content, behind ++ more) := by
  unfold scanLiteral? at h
  split at h
  · next rest htext =>
      obtain ⟨⟨chars, left⟩, hscan, hpair⟩ := Option.map_eq_some_iff.mp h
      cases hpair
      have hmore : (s ++ more).toList = '"' :: (rest ++ more.toList) := by simp [htext]
      rw [scanLiteral?_of_toList hmore, scanContent?_append hscan]
      simp
  · cases h

/-- The beginning of a written literal is one only if it is all of it. -/
theorem isSome_scanLiteral?_take_quote (s : String) (n : Nat) :
    (scanLiteral? (String.ofList ((quote s).toList.take n))).isSome ↔
      (quote s).toList.length ≤ n := by
  constructor
  · intro h
    obtain ⟨⟨content, behind⟩, hpart⟩ := Option.isSome_iff_exists.mp h
    have hall := scanLiteral?_append hpart (String.ofList ((quote s).toList.drop n))
    have hquote := scanLiteral?_quote_append s ""
    rw [String.append_empty] at hquote
    rw [← String.ofList_append, List.take_append_drop, String.ofList_toList, hquote,
      Option.some.injEq, Prod.mk.injEq] at hall
    have hlength := congrArg String.length hall.2
    simp at hlength
    omega
  · intro h
    have hquote := scanLiteral?_quote_append s ""
    rw [String.append_empty] at hquote
    rw [List.take_of_length_le h, String.ofList_toList, hquote]
    rfl

end Text

open Text

/-- A string is written between quotes with its backslashes doubled and then a backslash before each
quote. Whatever text follows, a reader of literals stops exactly at the end of what was written,
recovers the content and leaves the rest; it finds no end before. So two strings that are written
alike, with anything behind them, are the same. -/
theorem quoted_text_delimits_itself (s t : String) :
    (Value.str s).text = String.ofList
        ('"' :: (replaceAll '"' ['\\', '"'] (replaceAll '\\' ['\\', '\\'] s.toList) ++ ['"'])) ∧
      scanLiteral? ((Value.str s).text ++ t) = some (s, t) ∧
      (∀ n, (scanLiteral? (String.ofList ((Value.str s).text.toList.take n))).isSome ↔
        (Value.str s).text.toList.length ≤ n) ∧
      ∀ s' t', (Value.str s).text ++ t = (Value.str s').text ++ t' ↔ s = s' ∧ t = t' := by
  refine ⟨?_, scanLiteral?_quote_append s t, isSome_scanLiteral?_take_quote s, fun s' t' => ?_⟩
  · rw [← escape_eq_replaceAll]
    rfl
  · constructor
    · intro h
      have hscan := scanLiteral?_quote_append s t
      rw [show quote s ++ t = quote s' ++ t' from h, scanLiteral?_quote_append] at hscan
      simpa [eq_comm] using hscan
    · rintro ⟨rfl, rfl⟩
      rfl

example : scanLiteral? ((Value.str "a\\\"").text ++ "\";") = some ("a\\\"", "\";") := by decide

end Stylesheet
