import TypeGraph.Proofs.Json.Numbers

/-!
# The grammar of JSON texts

`Spells cs j` says that the text `cs` is well-formed JSON for the value `j`, with any blanks around
its parts. It is given without a reader, by what the texts of each kind of value look like:

* `SpellsNumeral`: a sign, digits, a fraction and an exponent; the number must be in the range of
  doubles (`Numeral.value`);
* `SpellsPieces` and `Joins`: the characters and escapes between quotes, and what they stand for; no
  half of a surrogate pair may stand alone;
* `Spells`: values, with commas between the parts of arrays and objects.
-/

namespace TypeGraph

/-- A text of blanks alone. -/
def Blanks (cs : List Char) : Prop := ∀ c ∈ cs, isBlank c = true

instance (cs : List Char) : Decidable (Blanks cs) :=
  decidable_of_iff (cs.all isBlank = true) List.all_eq_true

/-! ## Numbers -/

/-- The texts of a fraction, with the digits behind the point. -/
inductive SpellsFraction : List Char → Option (List Char) → Prop
  | none : SpellsFraction [] none
  | some {ds : List Char} (hd : IsDigits ds) : SpellsFraction ('.' :: ds) (some ds)

/-- The texts of an exponent. -/
inductive SpellsExponent : List Char → Option Int → Prop
  | none : SpellsExponent [] none
  | unsigned {c : Char} {ds : List Char} (hc : c = 'e' ∨ c = 'E') (hd : IsDigits ds) :
      SpellsExponent (c :: ds) (some (digitsValue ds))
  | plus {c : Char} {ds : List Char} (hc : c = 'e' ∨ c = 'E') (hd : IsDigits ds) :
      SpellsExponent (c :: '+' :: ds) (some (digitsValue ds))
  | minus {c : Char} {ds : List Char} (hc : c = 'e' ∨ c = 'E') (hd : IsDigits ds) :
      SpellsExponent (c :: '-' :: ds) (some (-(digitsValue ds : Int)))

/-- The texts of a numeral: an optional minus sign, digits of which a leading zero stands alone, and
at will a fraction and an exponent. -/
inductive SpellsNumeral : List Char → Numeral → Prop
  | mk (negative : Bool) {ws fs es : List Char} {fraction : Option (List Char)}
      {exponent : Option Int} (hw : IsWhole ws) (hf : SpellsFraction fs fraction)
      (he : SpellsExponent es exponent) :
      SpellsNumeral (if negative then '-' :: (ws ++ (fs ++ es)) else ws ++ (fs ++ es))
        ⟨negative, ws, fraction.getD [], exponent.getD 0, fraction.isNone && exponent.isNone⟩

/-! ## Strings -/

/-- The texts between quotes that spell some pieces. -/
inductive SpellsPieces : List Char → List Piece → Prop
  | nil : SpellsPieces [] []
  | char {c : Char} {cs : List Char} {ps : List Piece} (hq : c ≠ '"') (hb : c ≠ '\\')
      (hc : ¬ c.toNat < 0x20) (h : SpellsPieces cs ps) : SpellsPieces (c :: cs) (.char c :: ps)
  | escape {c e : Char} {cs : List Char} {ps : List Piece} (he : unescape? c = some e)
      (h : SpellsPieces cs ps) : SpellsPieces ('\\' :: c :: cs) (.char e :: ps)
  | unit {a b c d : Char} {n : Nat} {cs : List Char} {ps : List Piece}
      (hn : hexUnit? a b c d = some n) (h : SpellsPieces cs ps) :
      SpellsPieces ('\\' :: 'u' :: a :: b :: c :: d :: cs) (.unit n :: ps)

/-- The characters that some pieces stand for. A unit that is half of a surrogate pair stands for
something only together with its other half. -/
inductive Joins : List Piece → List Char → Prop
  | nil : Joins [] []
  | char {c : Char} {ps : List Piece} {cs : List Char} (h : Joins ps cs) :
      Joins (.char c :: ps) (c :: cs)
  | unit {n : Nat} {ps : List Piece} {cs : List Char} (ht : isTrailing n = false)
      (hl : isLeading n = false) (h : Joins ps cs) : Joins (.unit n :: ps) (Char.ofNat n :: cs)
  | pair {n m : Nat} {ps : List Piece} {cs : List Char} (hl : isLeading n = true)
      (ht : isTrailing m = true) (h : Joins ps cs) :
      Joins (.unit n :: .unit m :: ps)
        (Char.ofNat ((n - 0xD800) * 0x400 + (m - 0xDC00) + 0x10000) :: cs)

/-! ## Values -/

/-- Texts with commas between them. -/
def separated (texts : List (List Char)) : List Char := [','].intercalate texts

/-- A member of an object with its texts, that of the name and that of the value. -/
structure MemberText where
  nameText : List Char
  name : String
  valueText : List Char
  value : Json

/-- The text of a member: a name, a colon and a value. -/
def MemberText.text (m : MemberText) : List Char := m.nameText ++ ':' :: m.valueText

/-- The member that is spelled. -/
def MemberText.member (m : MemberText) : String × Json := (m.name, m.value)

/-- The texts of a value. -/
inductive Spells : List Char → Json → Prop
  | padded {before cs after : List Char} {j : Json} (hb : Blanks before) (ha : Blanks after)
      (h : Spells cs j) : Spells (before ++ (cs ++ after)) j
  | nullWord : Spells ['n', 'u', 'l', 'l'] .null
  | trueWord : Spells ['t', 'r', 'u', 'e'] (.boolean true)
  | falseWord : Spells ['f', 'a', 'l', 's', 'e'] (.boolean false)
  | number {cs : List Char} {n : Numeral} {v : Number} (hn : SpellsNumeral cs n)
      (hv : n.value = .ok v) : Spells cs (.number v)
  | string {cs : List Char} {ps : List Piece} {s : String} (hp : SpellsPieces cs ps)
      (hs : Joins ps s.toList) : Spells ('"' :: (cs ++ ['"'])) (.string s)
  | noItems {cs : List Char} (hb : Blanks cs) : Spells ('[' :: (cs ++ [']'])) (.array [])
  | array {items : List (List Char × Json)} (hne : items ≠ []) (h : ∀ i ∈ items, Spells i.1 i.2) :
      Spells ('[' :: (separated (items.map (·.1)) ++ [']'])) (.array (items.map (·.2)))
  | noMembers {cs : List Char} (hb : Blanks cs) :
      Spells ('{' :: (cs ++ ['}'])) (.object [])
  | object {members : List MemberText} (hne : members ≠ [])
      (hn : ∀ m ∈ members, Spells m.nameText (.string m.name))
      (hv : ∀ m ∈ members, Spells m.valueText m.value) :
      Spells ('{' :: (separated (members.map (·.text)) ++ ['}']))
        (.object (members.map (·.member)))

end TypeGraph
