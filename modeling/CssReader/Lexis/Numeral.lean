/-
# Numerals

A numeral has an optional sign, digits before or after a point or both, and an
optional exponent. A point or an exponent mark without a digit behind it is not
part of the numeral, so `1.` and `1e+` read as `1`.

A numeral stands for its digits times a power of ten, and its value is the
nearest floating-point number: infinite when it is too large, zero with its
sign kept when it is too small.

Key definitions: `Numeral.read?`, `Numeral.text`, `Numeral.toFloat`.
Key theorem: `Numeral.read?_split`.
-/
import CssReader.Text

namespace CssReader

/-- A numeral, in the parts it is written in. -/
structure Numeral where
  /-- Nothing, a plus or a minus. -/
  sign : Text
  /-- The digits before the point. -/
  whole : Text
  /-- The point and the digits after it, or nothing. -/
  fraction : Text
  /-- The exponent mark, its sign and its digits, or nothing. -/
  exponent : Text
deriving DecidableEq

namespace Numeral

/-- The numeral as it is written. -/
def text (n : Numeral) : Text := n.sign ++ n.whole ++ n.fraction ++ n.exponent

/-! ### Reading -/

/-- The sign at the front of a text, if there is one, and the rest. -/
def readSign : Text → Text × Text
  | [] => ([], [])
  | c :: s => if c = '+' || c = '-' then ([c], s) else ([], c :: s)

/-- The digits at the front of a text, and the rest. -/
def readDigits (s : Text) : Text × Text :=
  (s.takeWhile Char.isDigit, s.dropWhile Char.isDigit)

/-- A point with digits behind it, if the text begins so, and the rest. -/
def readFraction : Text → Text × Text
  | [] => ([], [])
  | c :: s =>
    let (digits, r) := readDigits s
    if c = '.' && !digits.isEmpty then (c :: digits, r) else ([], c :: s)

/-- An exponent mark with digits behind it and perhaps a sign between them, if
the text begins so, and the rest. -/
def readExponent : Text → Text × Text
  | [] => ([], [])
  | c :: s =>
    let (sign, t) := readSign s
    let (digits, r) := readDigits t
    if (c = 'e' || c = 'E') && !digits.isEmpty then (c :: sign ++ digits, r) else ([], c :: s)

/-- The longest numeral at the front of a text, and the rest. -/
def read? (s : Text) : Option (Numeral × Text) :=
  let (sign, s1) := readSign s
  let (whole, s2) := readDigits s1
  let (fraction, s3) := readFraction s2
  let (exponent, s4) := readExponent s3
  if whole.isEmpty && fraction.isEmpty then none else some (⟨sign, whole, fraction, exponent⟩, s4)

theorem readSign_split (s : Text) : (readSign s).1 ++ (readSign s).2 = s := by
  unfold readSign
  split
  · rfl
  · split <;> rfl

theorem readDigits_split (s : Text) : (readDigits s).1 ++ (readDigits s).2 = s :=
  List.takeWhile_append_dropWhile

theorem readFraction_split (s : Text) : (readFraction s).1 ++ (readFraction s).2 = s := by
  unfold readFraction
  split
  · rfl
  · rename_i c s
    have h := readDigits_split s
    dsimp only
    split
    · simp [h]
    · rfl

theorem readExponent_split (s : Text) : (readExponent s).1 ++ (readExponent s).2 = s := by
  unfold readExponent
  split
  · rfl
  · rename_i c s
    have h1 := readSign_split s
    have h2 := readDigits_split (readSign s).2
    dsimp only
    split
    · simp [h1, h2]
    · rfl

/-- Nothing is lost, and a numeral has at least one digit. -/
theorem read?_split {s r : Text} {n : Numeral} (h : read? s = some (n, r)) :
    n.text ++ r = s ∧ n.text ≠ [] := by
  have h1 := readSign_split s
  have h2 := readDigits_split (readSign s).2
  have h3 := readFraction_split (readDigits (readSign s).2).2
  have h4 := readExponent_split (readFraction (readDigits (readSign s).2).2).2
  simp only [read?] at h
  split at h
  · simp at h
  · rename_i hne
    simp only [Option.some.injEq, Prod.mk.injEq] at h
    obtain ⟨rfl, rfl⟩ := h
    refine ⟨?_, ?_⟩
    · simp [text, h1, h2, h3, h4]
    · intro h0
      simp [text] at h0
      simp [h0] at hne

/-! ### The number a numeral stands for -/

/-- The number written by decimal digits; characters that are no digits do not count. -/
def natOfDigits (s : Text) : Nat :=
  (s.filter Char.isDigit).foldl (fun n c => 10 * n + (c.toNat - '0'.toNat)) 0

/-- Whether the sign is a minus. -/
def isNegative (n : Numeral) : Bool := n.sign = ['-']

/-- All digits before and after the point, as one number. -/
def digits (n : Numeral) : Nat := natOfDigits (n.whole ++ n.fraction)

/-- The power of ten that the digits are multiplied by. -/
def scale (n : Numeral) : Int :=
  let e : Int := natOfDigits n.exponent
  (if '-' ∈ n.exponent then -e else e) - (n.fraction.length - 1 : Nat)

/-- The number of decimal places from the first digit that is not zero to the
units place: a numeral that is not zero lies between the powers of ten with this
exponent and with one less. -/
def magnitude (n : Numeral) : Int :=
  (((n.whole ++ n.fraction).filter Char.isDigit).dropWhile (· = '0')).length + n.scale

/-- Decimal places beyond which every numeral is infinite or zero as a
floating-point number. -/
def floatPlaces : Int := 400

/-- The floating-point number nearest to the numeral, with its sign. -/
def toFloat (n : Numeral) : Float :=
  let size : Float :=
    if n.digits = 0 || n.magnitude < -floatPlaces then 0
    else if floatPlaces < n.magnitude then 1 / 0
    else Float.ofScientific n.digits (n.scale < 0) n.scale.natAbs
  if n.isNegative then -size else size

end Numeral
end CssReader
