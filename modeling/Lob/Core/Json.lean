import Mathlib.Data.List.DropRight
import Mathlib.Data.List.Forall2
import Lob.Core.Text

/-!
# JSON

The values that a text stands for, as a reader of JSON finds them. Fractions,
exponents and `\u` escapes are left out. A text reads as a value when the reader
takes it so whatever follows, and such texts compose.
-/

/-- A value. An object keeps its fields in order. -/
inductive Json where
  | null
  | bool (b : Bool)
  | int (z : Int)
  | str (cs : List Char)
  | arr (vs : List Json)
  | obj (fs : List (List Char × Json))

namespace Json

open Text (Ends ends_cons digits lit lit_eq ofInt scanNat)

/-- White space between tokens. -/
def isBlank (c : Char) : Bool := c = ' ' || c = '\t' || c = '\n' || c = '\r'

/-- What follows the white space. -/
def skip (cs : List Char) : List Char := cs.dropWhile isBlank

/-- The character that an escape stands for. -/
def unescape : Char → Option Char
  | '"' => some '"'
  | '\\' => some '\\'
  | '/' => some '/'
  | 'b' => some '\x08'
  | 'f' => some '\x0c'
  | 'n' => some '\n'
  | 'r' => some '\r'
  | 't' => some '\t'
  | _ => none

/-- A string behind its opening quote. Control characters have to be escaped. -/
def string : List Char → Option (List Char × List Char)
  | [] => none
  | '"' :: cs => some ([], cs)
  | ['\\'] => none
  | '\\' :: e :: cs =>
    match unescape e with
    | none => none
    | some c => (string cs).map fun r => (c :: r.1, r.2)
  | c :: cs => if c < ' ' then none else (string cs).map fun r => (c :: r.1, r.2)

/-- A character that makes a number more than an integer. -/
def isFraction (c : Char) : Bool := c = '.' || c = 'e' || c = 'E'

/-- Digits without a leading zero. -/
def natural : List Char → Option (Nat × List Char)
  | '0' :: cs => some (0, cs)
  | cs => scanNat cs

/-- A natural number with or without a minus sign. -/
def signed : List Char → Option (Int × List Char)
  | '-' :: cs => (natural cs).map fun r => (-r.1, r.2)
  | cs => (natural cs).map fun r => (r.1, r.2)

/-- An integer. -/
def number (cs : List Char) : Option (Int × List Char) :=
  (signed cs).filter fun r => !r.2.head?.any isFraction

mutual

/-- A value at the front of a text, of a nesting that the bound covers. -/
def value : Nat → List Char → Option (Json × List Char)
  | 0, _ => none
  | n + 1, cs =>
    match skip cs with
    | '"' :: cs => (string cs).map fun r => (.str r.1, r.2)
    | '[' :: cs =>
      match skip cs with
      | ']' :: cs => some (.arr [], cs)
      | cs => (elements n cs).map fun r => (.arr r.1, r.2)
    | '{' :: cs =>
      match skip cs with
      | '}' :: cs => some (.obj [], cs)
      | cs => (members n cs).map fun r => (.obj r.1, r.2)
    | 't' :: 'r' :: 'u' :: 'e' :: cs => some (.bool true, cs)
    | 'f' :: 'a' :: 'l' :: 's' :: 'e' :: cs => some (.bool false, cs)
    | 'n' :: 'u' :: 'l' :: 'l' :: cs => some (.null, cs)
    | cs => (number cs).map fun r => (.int r.1, r.2)

/-- The values up to the bracket that closes an array. -/
def elements : Nat → List Char → Option (List Json × List Char)
  | 0, _ => none
  | n + 1, cs =>
    match value n cs with
    | none => none
    | some (v, cs) =>
      match skip cs with
      | ',' :: cs => (elements n cs).map fun r => (v :: r.1, r.2)
      | ']' :: cs => some ([v], cs)
      | _ => none

/-- The fields up to the brace that closes an object. -/
def members : Nat → List Char → Option (List (List Char × Json) × List Char)
  | 0, _ => none
  | n + 1, cs =>
    match skip cs with
    | '"' :: cs =>
      match string cs with
      | none => none
      | some (k, cs) =>
        match skip cs with
        | ':' :: cs =>
          match value n cs with
          | none => none
          | some (v, cs) =>
            match skip cs with
            | ',' :: cs => (members n cs).map fun r => ((k, v) :: r.1, r.2)
            | '}' :: cs => some ([(k, v)], cs)
            | _ => none
        | _ => none
    | _ => none

end

/-- `json.loads`: a text that is one value. -/
def loads (cs : List Char) : Option Json :=
  match value (cs.length + 1) cs with
  | none => none
  | some (v, rest) => if skip rest = [] then some v else none

/-- The value of a field. The last one of its name counts. -/
def get : Json → List Char → Option Json
  | .obj fs, k => fs.reverse.lookup k
  | _, _ => none

/-- A field that is a truth value. -/
def getBool (v : Json) (k : List Char) : Option Bool :=
  match v.get k with
  | some (.bool b) => some b
  | _ => none

/-- A field that is a number. -/
def getInt (v : Json) (k : List Char) : Option Int :=
  match v.get k with
  | some (.int z) => some z
  | _ => none

/-- A field that is a number and not negative. -/
def getNat (v : Json) (k : List Char) : Option Nat :=
  match v.get k with
  | some (.int (.ofNat n)) => some n
  | _ => none

/-- A field that is an array. -/
def getArr (v : Json) (k : List Char) : Option (List Json) :=
  match v.get k with
  | some (.arr vs) => some vs
  | _ => none

/-- The pieces with commas between them. -/
def join : List (List Char) → List Char
  | [] => []
  | t :: ts => t ++ ts.flatMap fun t => ',' :: t

variable {v : Json} {vs : List Json} {k : List Char} {fs : List (List Char × Json)} {c : Char}
  {cs t rest : List Char} {ts : List (List Char)} {n : Nat} {z : Int}

/-- A number at the front of the text would go on with the character. -/
def continues (c : Char) : Bool := c.isDigit || isFraction c

/-- The reader takes the text for the value, whatever follows it. -/
def Reads (v : Json) (cs : List Char) : Prop :=
  ∀ n rest, cs.length < n → Ends continues rest → value n (cs ++ rest) = some (v, rest)

/-- The text stands for the string between its quotes. -/
def Quotes (s body : List Char) : Prop := ∀ rest, string (body ++ '"' :: rest) = some (s, rest)

/-- Nothing is skipped in front of a character. -/
theorem skip_of_not_blank (h : isBlank c = false) (cs : List Char) : skip (c :: cs) = c :: cs :=
  Text.dropWhile_of_ends (ends_cons h cs)

/-- The empty text quotes the empty string. -/
theorem quotes_nil : Quotes [] [] := fun _ => rfl

/-- A character that is neither special nor a control character. -/
theorem Quotes.cons (h : Quotes cs t) (hq : c ≠ '"') (hb : c ≠ '\\') (hc : ¬ c < ' ') :
    Quotes (c :: cs) (c :: t) := by
  intro rest
  rw [List.cons_append]
  unfold string
  split
  · contradiction
  · next heq => exact absurd (List.cons.inj heq).1 hq
  · next heq => exact absurd (List.cons.inj heq).1 hb
  · next heq => exact absurd (List.cons.inj heq).1 hb
  · next heq =>
    rw [← (List.cons.inj heq).1, ← (List.cons.inj heq).2, if_neg hc, h rest]
    rfl

/-- A text of such characters stands for itself. -/
theorem quotes_self (h : ∀ c ∈ cs, c ≠ '"' ∧ c ≠ '\\' ∧ ¬ c < ' ') : Quotes cs cs := by
  induction cs with
  | nil => exact quotes_nil
  | cons c cs ih =>
    rw [List.forall_mem_cons] at h
    exact (ih h.2).cons h.1.1 h.1.2.1 h.1.2.2

/-- An escaped character is quoted by its escape. -/
theorem Quotes.escape (h : Quotes cs t) {e : Char} (he : unescape e = some c) :
    Quotes (c :: cs) ('\\' :: e :: t) := by
  intro rest
  rw [List.cons_append, List.cons_append, string, he, h rest]
  rfl

/-- A printed number is read up to where its digits end. -/
theorem natural_digits (n : Nat) (h : Ends Char.isDigit rest) :
    natural (digits n ++ rest) = some (n, rest) := by
  have hscan := Text.scanNat_digits n h
  unfold natural
  split
  · next ds heq =>
    by_cases hn : n = 0
    · rw [hn] at heq ⊢
      rw [← (List.cons.inj heq).2]
      rfl
    · cases hd : digits n with
      | nil => exact absurd hd (Text.digits_ne_nil n)
      | cons d ds =>
        rw [hd] at heq
        exact absurd (List.cons.inj heq).1 (Text.digits_head hn hd)
  · exact hscan

/-- A printed integer is read up to where its digits end. -/
theorem signed_ofInt (z : Int) (h : Ends Char.isDigit rest) :
    signed (ofInt z ++ rest) = some (z, rest) := by
  cases z with
  | ofNat n =>
    rw [ofInt]
    unfold signed
    split
    · next heq => exact absurd heq (Text.digits_append_ne (by decide) n rest _)
    · rw [natural_digits n h]
      rfl
  | negSucc n =>
    rw [ofInt, List.cons_append, signed, natural_digits _ h]
    rfl

/-- A printed integer is read as a number without a fraction. -/
theorem number_ofInt (z : Int) (h : Ends continues rest) :
    number (ofInt z ++ rest) = some (z, rest) := by
  have hfrac : rest.head?.any isFraction = false := by
    rw [Option.any_eq_false]
    intro c hc
    have hcont := h c hc
    simp only [continues, Bool.or_eq_false_iff] at hcont
    simp [hcont.2]
  have hdigit : Ends Char.isDigit rest := h.mono fun c hc => by
    simp only [continues, Bool.or_eq_false_iff] at hc
    exact hc.1
  rw [number, signed_ofInt z hdigit]
  simp [hfrac]

/-- What starts with a digit or a minus sign is read as a number. -/
theorem value_number (hc : c.isDigit = true ∨ c = '-') (n : Nat) (cs : List Char) :
    value (n + 1) (c :: cs) = (number (c :: cs)).map fun r => (.int r.1, r.2) := by
  have hblank : isBlank c = false := by
    cases hb : isBlank c with
    | false => rfl
    | true =>
      simp only [isBlank, Bool.or_eq_true, decide_eq_true_eq] at hb
      rcases hb with ((rfl | rfl) | rfl) | rfl <;> exact absurd hc (by decide)
  have hne (d : Char) (hd : d.isDigit = false) (hm : d ≠ '-') {cs' : List Char} :
      c :: cs ≠ d :: cs' := by
    intro heq
    rw [(List.cons.inj heq).1] at hc
    rcases hc with hc | hc
    · rw [hd] at hc
      contradiction
    · exact hm hc
  rw [value, skip_of_not_blank hblank]
  split
  · next heq => exact absurd heq (hne '"' (by decide) (by decide))
  · next heq => exact absurd heq (hne '[' (by decide) (by decide))
  · next heq => exact absurd heq (hne '{' (by decide) (by decide))
  · next heq => exact absurd heq (hne 't' (by decide) (by decide))
  · next heq => exact absurd heq (hne 'f' (by decide) (by decide))
  · next heq => exact absurd heq (hne 'n' (by decide) (by decide))
  · rfl

/-- A printed integer reads as its value. -/
theorem reads_int (z : Int) : Reads (.int z) (ofInt z) := by
  intro n rest hn h
  obtain ⟨m, rfl⟩ : ∃ m, n = m + 1 := ⟨n - 1, by omega⟩
  have hnumber := number_ofInt z h
  have hmem := fun c => Text.mem_ofInt (c := c) (z := z)
  cases hd : ofInt z with
  | nil => exact absurd hd (Text.ofInt_ne_nil z)
  | cons c cs =>
    rw [hd] at hnumber hmem
    rw [List.cons_append] at hnumber ⊢
    rw [value_number (hmem c List.mem_cons_self), hnumber]
    rfl

/-- A printed truth value reads as itself. -/
theorem reads_bool (b : Bool) : Reads (.bool b) (if b then lit "true" else lit "false") := by
  intro n rest hn _
  obtain ⟨m, rfl⟩ : ∃ m, n = m + 1 := ⟨n - 1, by omega⟩
  cases b with
  | false =>
    have hlit : lit "false" = ['f', 'a', 'l', 's', 'e'] := by
      simp only [lit_eq, String.reduceToList]
    rw [if_neg Bool.false_ne_true, hlit]
    rfl
  | true =>
    have hlit : lit "true" = ['t', 'r', 'u', 'e'] := by
      simp only [lit_eq, String.reduceToList]
    rw [if_pos rfl, hlit]
    rfl

/-- A quoted text reads as its string. -/
theorem Quotes.reads (h : Quotes cs t) : Reads (.str cs) ('"' :: t ++ ['"']) := by
  intro n rest hn _
  obtain ⟨m, rfl⟩ : ∃ m, n = m + 1 := ⟨n - 1, by omega⟩
  have hstring := h rest
  rw [List.append_assoc, List.cons_append, List.singleton_append, value,
    skip_of_not_blank (by decide)]
  simp only [hstring, Option.map_some]

/-- A comma follows the first part. -/
theorem join_cons_cons (t u : List Char) (ts : List (List Char)) :
    join (t :: u :: ts) = t ++ ',' :: join (u :: ts) := by
  simp only [join, List.flatMap_cons, List.cons_append]

/-- The elements of an array, with commas between them. -/
theorem elements_join (hv : Reads v t) (h : List.Forall₂ Reads vs ts)
    (hn : (join (t :: ts)).length + 1 < n) (rest : List Char) :
    elements n (join (t :: ts) ++ ']' :: rest) = some (v :: vs, rest) := by
  induction h generalizing v t n with
  | nil =>
    obtain ⟨m, rfl⟩ : ∃ m, n = m + 1 := ⟨n - 1, by omega⟩
    simp only [join, List.flatMap_nil, List.append_nil] at hn ⊢
    rw [elements, hv m _ (by omega) (ends_cons (by decide) rest)]
    rfl
  | @cons w u vs ts hw h ih =>
    obtain ⟨m, rfl⟩ : ∃ m, n = m + 1 := ⟨n - 1, by omega⟩
    rw [join_cons_cons] at hn ⊢
    rw [List.length_append, List.length_cons] at hn
    have hrest := ih hw (n := m) (by omega)
    rw [List.append_assoc, List.cons_append, elements, hv m _ (by omega) (ends_cons (by decide) _)]
    simp only [skip_of_not_blank (show isBlank ',' = false by decide), hrest, Option.map_some]

/-- Skipping twice skips no more. -/
theorem skip_skip (cs : List Char) : skip (skip cs) = skip cs :=
  List.dropWhile_idempotent _ _

/-- White space in front of elements does not matter. -/
theorem elements_skip (n : Nat) (cs : List Char) : elements n (skip cs) = elements n cs := by
  cases n with
  | zero => rfl
  | succ n =>
    have hvalue : value n (skip cs) = value n cs := by
      cases n with
      | zero => rfl
      | succ n => rw [value, value, skip_skip]
    rw [elements, elements, hvalue]

/-- No value starts with a bracket that closes. -/
theorem elements_close (h : skip cs = ']' :: rest) (n : Nat) : elements n cs = none := by
  cases n with
  | zero => rfl
  | succ n =>
    have hvalue : value n cs = none := by
      cases n with
      | zero => rfl
      | succ n =>
        rw [value, h]
        rfl
    rw [elements, hvalue]

/-- An opening bracket: an empty array, or its elements. -/
theorem value_bracket (n : Nat) (cs : List Char) :
    value (n + 1) ('[' :: cs) =
      match skip cs with
      | ']' :: cs => some (.arr [], cs)
      | cs => (elements n cs).map fun r => (.arr r.1, r.2) := by
  rw [value, skip_of_not_blank (by decide)]
  rfl

/-- Elements that read make an array that reads. -/
theorem reads_arr (h : List.Forall₂ Reads vs ts) : Reads (.arr vs) ('[' :: join ts ++ [']']) := by
  intro n rest hn _
  obtain ⟨m, rfl⟩ : ∃ m, n = m + 1 := ⟨n - 1, by omega⟩
  cases h with
  | nil => rfl
  | @cons v t vs ts hv h =>
    rw [List.length_append, List.length_cons, List.length_singleton] at hn
    have helements := elements_join hv h (n := m) (by omega) rest
    rw [List.append_assoc, List.cons_append, List.singleton_append, value_bracket]
    split
    · next heq =>
      rw [elements_close heq] at helements
      contradiction
    · rw [elements_skip, helements]
      rfl

/-- The text of a field, its name and its value. -/
def ReadsField (f : List Char × Json) (t : List Char) : Prop :=
  ∃ body s, Quotes f.1 body ∧ Reads f.2 s ∧ t = '"' :: body ++ '"' :: ':' :: s

/-- The reader takes a field and goes on behind it. -/
theorem ReadsField.members {f : List Char × Json} (hf : ReadsField f t) (hn : t.length < n)
    (h : Ends continues rest) :
    members (n + 1) (t ++ rest) =
      match skip rest with
      | ',' :: cs => (members n cs).map fun r => (f :: r.1, r.2)
      | '}' :: cs => some ([f], cs)
      | _ => none := by
  obtain ⟨body, s, hk, hv, rfl⟩ := hf
  have hkey := hk (':' :: s ++ rest)
  have hvalue := hv n rest (by
    simp only [List.length_append, List.length_cons] at hn
    omega) h
  simp only [List.append_assoc, List.cons_append] at hkey ⊢
  rw [Json.members, skip_of_not_blank (by decide)]
  simp only [hkey, skip_of_not_blank (show isBlank ':' = false by decide), hvalue]

/-- The fields of an object, with commas between them. -/
theorem members_join {f : List Char × Json} (hf : ReadsField f t)
    (h : List.Forall₂ ReadsField fs ts) (hn : (join (t :: ts)).length + 1 < n)
    (rest : List Char) : members n (join (t :: ts) ++ '}' :: rest) = some (f :: fs, rest) := by
  obtain ⟨m, rfl⟩ : ∃ m, n = m + 1 := ⟨n - 1, by omega⟩
  induction h generalizing f t m with
  | nil =>
    simp only [join, List.flatMap_nil, List.append_nil] at hn ⊢
    rw [hf.members (by omega) (ends_cons (by decide) rest)]
    rfl
  | @cons g u fs ts hg h ih =>
    rw [join_cons_cons] at hn ⊢
    rw [List.length_append, List.length_cons] at hn
    obtain ⟨k, rfl⟩ : ∃ k, m = k + 1 := ⟨m - 1, by omega⟩
    have hrest := ih hg k (by omega)
    rw [List.append_assoc, List.cons_append, hf.members (by omega) (ends_cons (by decide) _)]
    simp only [skip_of_not_blank (show isBlank ',' = false by decide), hrest, Option.map_some]

/-- An opening brace and a name: the members of an object. -/
theorem value_brace (n : Nat) (cs : List Char) :
    value (n + 1) ('{' :: '"' :: cs) =
      (members n ('"' :: cs)).map fun r => (.obj r.1, r.2) := by
  rw [value, skip_of_not_blank (by decide)]
  rfl

/-- Fields that read make an object that reads. -/
theorem reads_obj (h : List.Forall₂ ReadsField fs ts) :
    Reads (.obj fs) ('{' :: join ts ++ ['}']) := by
  intro n rest hn _
  obtain ⟨m, rfl⟩ : ∃ m, n = m + 1 := ⟨n - 1, by omega⟩
  cases h with
  | nil => rfl
  | @cons f t fs ts hf h =>
    rw [List.length_append, List.length_cons, List.length_singleton] at hn
    have hmembers := members_join hf h (n := m) (by omega) rest
    obtain ⟨body, s, -, -, rfl⟩ := hf
    simp only [join, List.append_assoc, List.cons_append, List.nil_append] at hmembers ⊢
    rw [value_brace, hmembers]
    rfl

/-- A text that reads as a value is loaded as it, with white space behind it or without. -/
theorem Reads.loads (h : Reads v t) {ws : List Char} (hws : ∀ c ∈ ws, isBlank c = true) :
    loads (t ++ ws) = some v := by
  have hends : Ends continues ws := by
    intro c hc
    have hblank := hws c (List.mem_of_mem_head? hc)
    simp only [isBlank, Bool.or_eq_true, decide_eq_true_eq] at hblank
    rcases hblank with ((rfl | rfl) | rfl) | rfl <;> decide
  have hvalue := h ((t ++ ws).length + 1) ws (by rw [List.length_append]; omega) hends
  have hskip : skip ws = [] := by rw [skip, List.dropWhile_eq_nil_iff]; exact hws
  rw [Json.loads, hvalue]
  exact if_pos hskip

end Json
