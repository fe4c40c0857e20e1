import Mathlib.Data.List.TakeWhile
import Mathlib.Data.UInt

/-!
# Text

Texts are lists of characters. The lines of a text, decimal numbers as they are
written and read, and input streams of words and numbers.
-/

namespace Text

variable {p : Char → Bool} {cs ds rest : List Char} {c : Char} {n : Nat} {z : Int}

/-- A literal text. -/
@[irreducible]
def lit (s : String) : List Char := s.toList

/-- A literal is its characters. -/
theorem lit_eq (s : String) : lit s = s.toList := by rw [lit]

/-- The text does not go on with a character that `p` accepts. -/
def Ends (p : Char → Bool) (rest : List Char) : Prop := ∀ c ∈ rest.head?, p c = false

/-- Nothing follows, so nothing of the kind does. -/
theorem ends_nil (p : Char → Bool) : Ends p [] := fun _ hc => nomatch hc

/-- A character of another kind follows. -/
theorem ends_cons (h : p c = false) (rest : List Char) : Ends p (c :: rest) := by
  intro d hd
  rw [List.head?_cons, Option.mem_some] at hd
  rw [← hd]
  exact h

/-- A smaller kind ends there too. -/
theorem Ends.mono {q : Char → Bool} (h : Ends p rest) (hqp : ∀ c, p c = false → q c = false) :
    Ends q rest :=
  fun c hc => hqp c (h c hc)

/-- Nothing is taken where the kind has ended. -/
theorem takeWhile_of_ends (h : Ends p rest) : rest.takeWhile p = [] := by
  cases rest with
  | nil => rfl
  | cons c cs => exact List.takeWhile_cons_of_neg (by simp [h c rfl])

/-- Nothing is dropped where the kind has ended. -/
theorem dropWhile_of_ends (h : Ends p rest) : rest.dropWhile p = rest := by
  have happ := List.takeWhile_append_dropWhile (p := p) (l := rest)
  rwa [takeWhile_of_ends h, List.nil_append] at happ

/-- A run of the kind is taken whole, and no more. -/
theorem takeWhile_append (hcs : ∀ c ∈ cs, p c = true) (h : Ends p rest) :
    (cs ++ rest).takeWhile p = cs := by
  rw [List.takeWhile_append_of_pos hcs, takeWhile_of_ends h, List.append_nil]

/-- A run of the kind is dropped whole, and no more. -/
theorem dropWhile_append (hcs : ∀ c ∈ cs, p c = true) (h : Ends p rest) :
    (cs ++ rest).dropWhile p = rest := by
  rw [List.dropWhile_append_of_pos hcs, dropWhile_of_ends h]

/-- The lines of a text. The last one need not be ended. -/
def lines : List Char → List (List Char)
  | [] => []
  | '\n' :: cs => [] :: lines cs
  | c :: cs =>
    match lines cs with
    | [] => [[c]]
    | l :: ls => (c :: l) :: ls

/-- A character that is no newline belongs to the first line. -/
theorem lines_cons (hc : c ≠ '\n') {l : List Char} {ls : List (List Char)}
    (h : lines cs = l :: ls) : lines (c :: cs) = (c :: l) :: ls := by
  rw [lines, h]
  exact hc

/-- The line in front of a newline. -/
theorem lines_append (h : '\n' ∉ ds) (cs : List Char) :
    lines (ds ++ '\n' :: cs) = ds :: lines cs := by
  induction ds with
  | nil => rfl
  | cons d ds ih =>
    rw [List.mem_cons, not_or] at h
    exact lines_cons (Ne.symm h.1) (ih h.2)

/-- Lines that are each ended are read back. -/
theorem lines_flatMap {ls : List (List Char)} (h : ∀ l ∈ ls, '\n' ∉ l) (cs : List Char) :
    lines (ls.flatMap (fun l => l ++ ['\n']) ++ cs) = ls ++ lines cs := by
  induction ls with
  | nil => rfl
  | cons l ls ih =>
    rw [List.forall_mem_cons] at h
    rw [List.flatMap_cons, List.append_assoc, List.append_assoc]
    exact (lines_append h.1 _).trans (congrArg (l :: ·) (ih h.2))

/-- The decimal digits of a number. -/
def digits (n : Nat) : List Char := Nat.toDigits 10 n

/-- The number that digits stand for. -/
def value (ds : List Char) : Nat := Nat.ofDigitChars 10 ds 0

/-- The digits of a number have its value. -/
@[simp]
theorem value_digits (n : Nat) : value (digits n) = n := Nat.ofDigitChars_ten_toDigits

/-- Every number has a digit. -/
theorem digits_ne_nil (n : Nat) : digits n ≠ [] := Nat.toDigits_ne_nil

/-- A number is printed in digits. -/
theorem isDigit_digits (n : Nat) : ∀ c ∈ digits n, c.isDigit = true :=
  fun _ hc => Nat.isDigit_of_mem_toDigits (by decide) (by decide) hc

/-- Digits start with a digit. -/
theorem digits_append_ne (hc : c.isDigit = false) (n : Nat) (rest cs : List Char) :
    digits n ++ rest ≠ c :: cs := by
  intro h
  cases hd : digits n with
  | nil => exact digits_ne_nil n hd
  | cons d ds =>
    have hdigit := isDigit_digits n d (by rw [hd]; exact List.mem_cons_self)
    rw [hd] at h
    rw [(List.cons.inj h).1, hc] at hdigit
    contradiction

/-- The last digit is the remainder by ten. -/
theorem digits_append (hn : 10 ≤ n) :
    digits n = digits (n / 10) ++ [Nat.digitChar (n % 10)] :=
  Nat.toDigits_of_base_le (by decide) hn

/-- Only zero starts with a zero. -/
theorem digits_head (hn : n ≠ 0) (h : digits n = c :: ds) : c ≠ '0' := by
  induction n using Nat.strong_induction_on generalizing c ds with
  | _ n ih =>
    by_cases hlt : n < 10
    · have hone : digits n = [n.digitChar] := Nat.toDigits_of_lt_base hlt
      rw [hone, List.cons.injEq] at h
      rw [← h.1, Ne, Nat.digitChar_eq_zero]
      exact hn
    · rw [digits_append (by omega)] at h
      cases hd : digits (n / 10) with
      | nil => exact absurd hd (digits_ne_nil _)
      | cons d ds' =>
        rw [hd, List.cons_append, List.cons.injEq] at h
        rw [← h.1]
        exact ih (n / 10) (by omega) (by omega) hd

/-- An integer as it is written. -/
def ofInt : Int → List Char
  | .ofNat n => digits n
  | .negSucc n => '-' :: digits (n + 1)

/-- A natural number is printed without a sign. -/
theorem ofInt_natCast (n : Nat) : ofInt (n : Int) = digits n := rfl

/-- Every integer is printed. -/
theorem ofInt_ne_nil (z : Int) : ofInt z ≠ [] := by
  cases z with
  | ofNat n => exact digits_ne_nil n
  | negSucc n => exact List.cons_ne_nil _ _

/-- The characters that an integer is written with. -/
theorem mem_ofInt (h : c ∈ ofInt z) : c.isDigit = true ∨ c = '-' := by
  cases z with
  | ofNat n => exact Or.inl (isDigit_digits n c h)
  | negSucc n =>
    rcases List.mem_cons.mp h with heq | hd
    · exact Or.inr heq
    · exact Or.inl (isDigit_digits _ c hd)

/-- The digits at the front of a text, if there are any. -/
def scanNat (cs : List Char) : Option (Nat × List Char) :=
  match cs.takeWhile Char.isDigit with
  | [] => none
  | d :: ds => some (value (d :: ds), cs.dropWhile Char.isDigit)

/-- The number at the front of a text, with its sign. -/
def scanInt : List Char → Option (Int × List Char)
  | '-' :: cs => (scanNat cs).map fun r => (-r.1, r.2)
  | '+' :: cs => (scanNat cs).map fun r => (r.1, r.2)
  | cs => (scanNat cs).map fun r => (r.1, r.2)

/-- A printed number is scanned back, up to where its digits end. -/
theorem scanNat_digits (n : Nat) (h : Ends Char.isDigit rest) :
    scanNat (digits n ++ rest) = some (n, rest) := by
  have htake := takeWhile_append (isDigit_digits n) h
  have hdrop := dropWhile_append (isDigit_digits n) h
  have hvalue := value_digits n
  have hne := digits_ne_nil n
  generalize digits n = ds at *
  cases ds with
  | nil => exact absurd rfl hne
  | cons d ds =>
    rw [scanNat, htake, hdrop, ← hvalue]

/-- A number is read as it was written. -/
theorem scanInt_ofInt (z : Int) (h : Ends Char.isDigit rest) :
    scanInt (ofInt z ++ rest) = some (z, rest) := by
  cases z with
  | ofNat n =>
    rw [ofInt]
    unfold scanInt
    split
    · next heq => exact absurd heq (digits_append_ne (by decide) n rest _)
    · next heq => exact absurd heq (digits_append_ne (by decide) n rest _)
    · rw [scanNat_digits n h]
      rfl
  | negSucc n =>
    rw [ofInt, List.cons_append, scanInt, scanNat_digits _ h]
    rfl

/-- `isspace`, in the classic locale. -/
def isSpace (c : Char) : Bool := c = ' ' || ('\t' ≤ c && c ≤ '\r')

/-- No digit is white space. -/
theorem isSpace_of_isDigit (h : c.isDigit = true) : isSpace c = false := by
  simp only [Char.isDigit, ge_iff_le, Bool.and_eq_true, decide_eq_true_eq] at h
  have h1 : '0' ≤ c := h.1
  have hspace : c ≠ ' ' := fun heq => absurd h1 (by rw [heq]; decide)
  have hlt : ¬ c ≤ '\r' := fun hle => absurd (Char.le_trans h1 hle) (by decide)
  simp only [isSpace, hspace, decide_false, hlt, Bool.and_false, Bool.or_self]

/-- The numbers that a `long long` holds. -/
def Signed (z : Int) : Prop := -2 ^ 63 ≤ z ∧ z < 2 ^ 63

/-- The nearest `long long`. -/
def clamp (z : Int) : Int := max (-2 ^ 63) (min z (2 ^ 63 - 1))

/-- A number that fits is not clamped. -/
theorem clamp_of_signed (h : Signed z) : clamp z = z := by
  obtain ⟨h1, h2⟩ := h
  unfold clamp
  omega

/-- `std::istringstream`: what has not been read, and whether an extraction has failed. -/
structure Stream where
  rest : List Char
  fail : Bool := false
  deriving DecidableEq, Repr

namespace Stream

/-- `>>` into a `std::string`. -/
def word (s : Stream) : List Char × Stream :=
  if s.fail then ([], s)
  else
    let cs := s.rest.dropWhile isSpace
    match cs.takeWhile (!isSpace ·) with
    | [] => ([], ⟨cs, true⟩)
    | w => (w, ⟨cs.dropWhile (!isSpace ·), false⟩)

/-- `>>` into a `long long` that is zero. -/
def longlong (s : Stream) : Int × Stream :=
  if s.fail then (0, s)
  else
    let cs := s.rest.dropWhile isSpace
    match scanInt cs with
    | none => (0, ⟨cs, true⟩)
    | some (z, rest) => (clamp z, ⟨rest, decide (clamp z ≠ z)⟩)

/-- `>>` into an `unsigned long long` that is zero. A negative number wraps around. -/
def ulonglong (s : Stream) : Nat × Stream :=
  if s.fail then (0, s)
  else
    let cs := s.rest.dropWhile isSpace
    match scanInt cs with
    | none => (0, ⟨cs, true⟩)
    | some (z, rest) =>
      if z.natAbs < 2 ^ 64 then ((z % 2 ^ 64).toNat, ⟨rest, false⟩) else (2 ^ 64 - 1, ⟨rest, true⟩)

/-- A word is read up to the space behind it. -/
theorem word_append (hne : cs ≠ []) (hcs : ∀ c ∈ cs, isSpace c = false)
    (h : Ends (!isSpace ·) rest) : word ⟨cs ++ rest, false⟩ = (cs, ⟨rest, false⟩) := by
  have hcs' : ∀ c ∈ cs, (!isSpace c) = true := fun c hc => by rw [hcs c hc]; rfl
  cases cs with
  | nil => contradiction
  | cons c cs =>
    have hskip : Ends isSpace (c :: cs ++ rest) := ends_cons (hcs c List.mem_cons_self) _
    rw [word, if_neg Bool.false_ne_true]
    simp only [dropWhile_of_ends hskip, takeWhile_append hcs' h, dropWhile_append hcs' h]

/-- Spaces in front are skipped. -/
theorem word_space (cs : List Char) : word ⟨' ' :: cs, false⟩ = word ⟨cs, false⟩ := by
  rw [word, word]
  rfl

/-- A printed integer begins with no space. -/
theorem ends_ofInt (z : Int) (rest : List Char) : Ends isSpace (ofInt z ++ rest) := by
  intro c hc
  have hmem : c ∈ ofInt z := by
    cases hd : ofInt z with
    | nil => exact absurd hd (ofInt_ne_nil z)
    | cons d ds =>
      rw [hd, List.cons_append, List.head?_cons, Option.mem_some] at hc
      rw [hc]
      exact List.mem_cons_self
  rcases mem_ofInt hmem with hd | rfl
  · exact isSpace_of_isDigit hd
  · decide

/-- A printed integer that fits is read back. -/
theorem longlong_ofInt (hz : Signed z) (h : Ends Char.isDigit rest) :
    longlong ⟨ofInt z ++ rest, false⟩ = (z, ⟨rest, false⟩) := by
  rw [longlong, if_neg Bool.false_ne_true]
  simp only [dropWhile_of_ends (ends_ofInt z rest), scanInt_ofInt z h, clamp_of_signed hz, ne_eq,
    not_true_eq_false, decide_false]

/-- A space in front is skipped. -/
theorem longlong_space (cs : List Char) : longlong ⟨' ' :: cs, false⟩ = longlong ⟨cs, false⟩ := by
  rw [longlong, longlong]
  rfl

/-- A printed number that fits is read back. -/
theorem ulonglong_digits (hn : n < 2 ^ 64) (h : Ends Char.isDigit rest) :
    ulonglong ⟨digits n ++ rest, false⟩ = (n, ⟨rest, false⟩) := by
  have hmod : ((n : Int) % 2 ^ 64).toNat = n := by omega
  have hskip := ends_ofInt n rest
  have hscan := scanInt_ofInt n h
  rw [ofInt_natCast] at hskip hscan
  rw [ulonglong, if_neg Bool.false_ne_true]
  simp only [dropWhile_of_ends hskip, hscan, Int.natAbs_natCast, hn, if_true, hmod]

/-- A space in front of a number is skipped. -/
theorem ulonglong_space (cs : List Char) :
    ulonglong ⟨' ' :: cs, false⟩ = ulonglong ⟨cs, false⟩ := by
  rw [ulonglong, ulonglong]
  rfl

end Stream

end Text
