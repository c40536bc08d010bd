import TypeGraph.Json.Draft
import TypeGraph.Json.Writer

/-!
# Strings that read back

Every character is written as something that is read as one piece and stands for the character
(`pieces_escape`, `joinPieces_piece`), so a string between quotes reads back as itself
(`Quoted.ofChars_quote`).
-/

namespace TypeGraph

/-- The piece as which a character is read where it was escaped: a unit if the character has no
letter of its own. -/
def piece (c : Char) : Piece :=
  if c.toNat < 0x20 ∧ c ∉ ['\n', '\r', '\t', '\x08', '\x0c'] then .unit c.toNat else .char c

/-- The digits of a control character give its number back. -/
theorem hexUnit?_hexDigit {n : Nat} (hn : n < 0x20) :
    hexUnit? '0' '0' (hexDigit (n / 16)) (hexDigit (n % 16)) = some n := by
  have h : ∀ n < 32, hexUnit? '0' '0' (hexDigit (n / 16)) (hexDigit (n % 16)) = some n := by decide
  exact h n hn

/-- A character that needs no escape is a piece of its own. -/
theorem pieces_cons {c : Char} (cs : List Char) (hq : c ≠ '"') (hb : c ≠ '\\')
    (hc : ¬ c.toNat < 0x20) : pieces (c :: cs) = (.char c :: (pieces cs).1, (pieces cs).2) := by
  rw [pieces.eq_7 c cs hq (fun _ _ _ _ _ h _ => hb h) (fun _ h _ => hb h) (fun h _ => hb h)
    (fun _ _ h _ => hb h), if_neg hc]

/-- An escaped character is read as its piece. -/
theorem pieces_escape (c : Char) (cs : List Char) :
    pieces (escape c ++ cs) = (piece c :: (pieces cs).1, (pieces cs).2) := by
  by_cases h : c ∈ ['"', '\\', '\n', '\r', '\t', '\x08', '\x0c']
  · -- a backslash and a letter
    simp only [List.mem_cons, List.not_mem_nil, or_false] at h
    rcases h with rfl | rfl | rfl | rfl | rfl | rfl | rfl <;> rfl
  simp only [List.mem_cons, List.not_mem_nil, or_false, not_or] at h
  obtain ⟨hq, hb, hn, hr, ht, hbs, hff⟩ := h
  by_cases hc : c.toNat < 0x20
  · -- four hexadecimal digits
    have hp : piece c = .unit c.toNat := if_pos ⟨hc, by simp [hn, hr, ht, hbs, hff]⟩
    simp [escape, hq, hb, hn, hr, ht, hbs, hff, hc, pieces, hexUnit?_hexDigit hc, hp]
  · have hp : piece c = .char c := if_neg fun h => hc h.1
    have he : escape c = [c] := by simp [escape, hq, hb, hn, hr, ht, hbs, hff, hc]
    rw [he, hp, List.singleton_append, pieces_cons cs hq hb hc]

/-- The piece of a character stands for it. -/
theorem joinPieces_piece (flaw : Option Fault) (c : Char) (ps : List Piece) :
    joinPieces flaw (piece c :: ps) = (joinPieces flaw ps).map (c :: ·) := by
  rw [piece]
  split
  next h =>
    -- a control character is no half of a surrogate pair
    have ht : isTrailing c.toNat = false := by
      simp only [isTrailing, Bool.and_eq_false_iff, decide_eq_false_iff_not]
      omega
    have hl : isLeading c.toNat = false := by
      simp only [isLeading, Bool.and_eq_false_iff, decide_eq_false_iff_not]
      omega
    have hc : Char.ofNat c.toNat = c := Char.ofNat_toNat c
    rw [joinPieces.eq_def]
    simp only [ht, hl, hc, Bool.false_eq_true, if_false]
    cases joinPieces flaw ps <;> rfl
  next =>
    rw [joinPieces]
    cases joinPieces flaw ps <;> rfl

/-- A string in front of its closing quote. -/
theorem pieces_quoted (cs rest : List Char) :
    pieces (cs.flatMap escape ++ '"' :: rest) = (cs.map piece, none, rest) := by
  induction cs with
  | nil => rfl
  | cons c cs ih => rw [List.flatMap_cons, List.append_assoc, pieces_escape, ih, List.map_cons]

theorem joinPieces_map_piece (cs : List Char) : joinPieces none (cs.map piece) = .ok cs := by
  induction cs with
  | nil => rfl
  | cons c cs ih =>
    rw [List.map_cons, joinPieces_piece, ih]
    rfl

/-- A string that was written between quotes reads back as itself. -/
theorem Quoted.ofChars_quote (s : String) (rest : List Char) :
    Quoted.ofChars (s.toList.flatMap escape ++ '"' :: rest) = (⟨.ok s, none⟩, rest) := by
  rw [Quoted.ofChars, pieces_quoted]
  simp only [joinPieces_map_piece]
  simp [Except.map]

end TypeGraph
