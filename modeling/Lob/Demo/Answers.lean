import Lob.Demo.Lines

/-!
# The answers of `lob_demo`

Whatever is written to it, `lob_demo` answers every line that is not empty with
one line of JSON, and the page finds in it the reply of the engine. The levels
pass through the text of a snapshot and come out as a `long long` holds them.
-/

namespace Lob.Demo

open Text
open Json (Reads ReadsField Quotes)

/-- The level after `sscanf`. -/
def LevelView.clamp (l : LevelView) : LevelView :=
  ⟨Text.clamp l.price, Text.clamp l.qty, (Text.clamp l.n).toNat⟩

/-- The reply after `emit_levels`. -/
def Reply.clamp (r : Reply) : Reply :=
  { r with asks := r.asks.map LevelView.clamp, bids := r.bids.map LevelView.clamp }

/-- The engine behind a line and the reply to it. -/
def respond (e : MatchingEngine) : Reading → MatchingEngine × Reply
  | .command c => execute e c
  | .blank | .quit | .unknown => (e, reply e false 0 [])

/-- The replies to the lines of the input. -/
def replies (e : MatchingEngine) : List (List Char) → List Reply
  | [] => []
  | line :: input =>
    match read line with
    | .blank => replies e input
    | .quit => []
    | r => (respond e r).2 :: replies (respond e r).1 input

/-- A level as a value. -/
def LevelView.json (l : LevelView) : Json :=
  .obj [(lit "price", .int l.price), (lit "qty", .int l.qty), (lit "n", .int l.n)]

/-- A fill as a value. -/
def FillView.json (f : FillView) : Json :=
  .obj [(lit "id", .int f.id), (lit "price", .int f.price), (lit "qty", .int f.qty)]

variable {l : LevelView} {c : Char} {cs k s rest : List Char} {v : Json}

/-- A level is read back from its JSON. -/
theorem LevelView.ofJson_json (l : LevelView) : LevelView.ofJson l.json = some l := by
  simp only [LevelView.ofJson, LevelView.json, lit_eq, String.reduceToList]
  rfl

/-- A fill is read back from its JSON. -/
theorem FillView.ofJson_json (f : FillView) : FillView.ofJson f.json = some f := by
  simp only [FillView.ofJson, FillView.json, lit_eq, String.reduceToList]
  rfl

/-- A name in front of a value. -/
theorem reads_field (hk : ∀ c ∈ k, c ≠ '"' ∧ c ≠ '\\' ∧ ¬ c < ' ') (hv : Reads v s) :
    ReadsField (k, v) ('"' :: k ++ '"' :: ':' :: s) :=
  ⟨k, s, Json.quotes_self hk, hv, rfl⟩

/-- A level is printed as an object of three fields. -/
theorem levelPart_eq (px qty n : Int) : levelPart px qty n =
    '{' :: Json.join ['"' :: lit "price" ++ '"' :: ':' :: ofInt px,
      '"' :: lit "qty" ++ '"' :: ':' :: ofInt qty,
      '"' :: lit "n" ++ '"' :: ':' :: ofInt n] ++ ['}'] := by
  simp [levelPart, Json.join, lit_eq]

/-- The object printed for a level reads as its JSON. -/
theorem LevelView.reads_part (l : LevelView) : Reads l.json (levelPart l.price l.qty l.n) := by
  rw [levelPart_eq]
  exact Json.reads_obj (.cons (reads_field (by simp [lit_eq]) (Json.reads_int l.price))
    (.cons (reads_field (by simp [lit_eq]) (Json.reads_int l.qty))
    (.cons (reads_field (by simp [lit_eq]) (Json.reads_int l.n)) .nil)))

/-- A fill is printed as an object of three fields. -/
theorem FillView.part_eq (f : FillView) : f.part =
    '{' :: Json.join ['"' :: lit "id" ++ '"' :: ':' :: digits f.id,
      '"' :: lit "price" ++ '"' :: ':' :: ofInt f.price,
      '"' :: lit "qty" ++ '"' :: ':' :: ofInt f.qty] ++ ['}'] := by
  simp [FillView.part, Json.join, lit_eq]

/-- The object printed for a fill reads as its JSON. -/
theorem FillView.reads_part (f : FillView) : Reads f.json f.part := by
  rw [FillView.part_eq]
  exact Json.reads_obj (.cons (reads_field (by simp [lit_eq]) (Json.reads_int f.id))
    (.cons (reads_field (by simp [lit_eq]) (Json.reads_int f.price))
    (.cons (reads_field (by simp [lit_eq]) (Json.reads_int f.qty)) .nil)))

/-- The characters of a snapshot are no control characters, newlines apart. -/
def Printable (c : Char) : Prop := c = '\n' ∨ ¬ c < ' '

/-- `json_escape` leaves a string that stands for the original. -/
theorem quotes_jsonEscape (h : ∀ c ∈ s, Printable c) : Quotes s (jsonEscape s) := by
  induction s with
  | nil => exact Json.quotes_nil
  | cons c s ih =>
    rw [List.forall_mem_cons] at h
    have hs := ih h.2
    unfold jsonEscape at hs ⊢
    rw [List.flatMap_cons]
    generalize (s.flatMap _ : List Char) = t at hs ⊢
    split
    · next hc =>
      rw [hc, show lit "\\n" = ['\\', 'n'] by simp [lit_eq]]
      exact hs.escape (show Json.unescape 'n' = some '\n' from rfl)
    split
    · next hc =>
      rw [hc, show lit "\\\"" = ['\\', '"'] by simp [lit_eq]]
      exact hs.escape (show Json.unescape '"' = some '"' from rfl)
    split
    · next hc =>
      rw [hc, show lit "\\\\" = ['\\', '\\'] by simp [lit_eq]]
      exact hs.escape (show Json.unescape '\\' = some '\\' from rfl)
    · next hn hq hb => exact hs.cons hq hb (h.1.resolve_left hn)

/-- A printed integer is scanned back, clamped. -/
theorem scanLld_ofInt (z : Int) (h : Ends Char.isDigit rest) :
    scanLld (ofInt z ++ rest) = some (Text.clamp z, rest) := by
  rw [scanLld, dropWhile_of_ends (Stream.ends_ofInt z rest), scanInt_ofInt z h]
  rfl

/-- A space ends a number. -/
theorem ends_space (cs : List Char) : Ends Char.isDigit (' ' :: cs) := ends_cons (by decide) cs

/-- A literal behind a space is matched. -/
theorem scanLiteral_append (hc : isSpace c = false) (cs rest : List Char) :
    scanLiteral (c :: cs) (' ' :: c :: cs ++ rest) = some rest := by
  have hskip : (' ' :: c :: cs ++ rest).dropWhile isSpace = c :: cs ++ rest :=
    dropWhile_of_ends (ends_cons hc _)
  rw [scanLiteral, hskip, if_pos (List.prefix_append _ _), List.drop_left]

/-- `sscanf` finds the numbers of a level. -/
theorem LevelView.scanLevel_text (l : LevelView) :
    scanLevel l.text = some (Text.clamp l.price, Text.clamp l.qty, Text.clamp l.n) := by
  have hn := scanLld_ofInt l.n (ends_nil _)
  have hqty := scanLld_ofInt l.qty (ends_space (lit "orders=" ++ digits l.n))
  have hprice := scanLld_ofInt l.price
    (ends_space (lit "qty=" ++ (ofInt l.qty ++ (' ' :: lit "orders=" ++ digits l.n))))
  have hlit1 := scanLiteral_append (c := 'q') (by decide) (lit "ty=")
    (ofInt l.qty ++ (' ' :: lit "orders=" ++ digits l.n))
  have hlit2 := scanLiteral_append (c := 'o') (by decide) (lit "rders=") (digits l.n)
  rw [List.append_nil, ofInt_natCast] at hn
  simp only [lit_eq, String.reduceToList, List.cons_append, List.nil_append] at hqty hprice
  simp only [lit_eq, String.reduceToList, List.cons_append, List.nil_append] at hlit1 hlit2
  simp only [scanLevel, LevelView.text, lit_eq, String.reduceToList, List.append_assoc,
    List.cons_append, List.nil_append, Option.bind_eq_bind, hprice, hlit1, hqty, hlit2, hn,
    Option.bind_some, Option.pure_def]

/-- The text of a level is no heading. -/
theorem LevelView.text_ne (l : LevelView) :
    l.text ≠ lit "ASKS:" ∧ l.text ≠ lit "BIDS:" ∧ l.text ≠ [] := by
  have hchars := fun c => mem_ofInt (c := c) (z := l.price)
  rw [LevelView.text]
  cases hp : ofInt l.price with
  | nil => exact absurd hp (ofInt_ne_nil l.price)
  | cons c cs =>
    rw [hp] at hchars
    have hc := hchars c List.mem_cons_self
    simp only [lit_eq, String.reduceToList, List.cons_append]
    refine ⟨fun h => ?_, fun h => ?_, List.cons_ne_nil _ _⟩
    · rw [(List.cons.inj h).1] at hc
      exact absurd hc (by decide)
    · rw [(List.cons.inj h).1] at hc
      exact absurd hc (by decide)

/-- A level as `emit_levels` prints it. -/
def LevelView.part (l : LevelView) : List Char :=
  levelPart (Text.clamp l.price) (Text.clamp l.qty) (Text.clamp l.n)

/-- A line of the snapshot becomes a part of its side. -/
theorem Emit.step_text (w : Emit) (l : LevelView) : w.step l.text =
    { w with
      askParts := if w.inAsks then w.askParts ++ [l.part] else w.askParts
      bidParts := if w.inBids then w.bidParts ++ [l.part] else w.bidParts } := by
  obtain ⟨hasks, hbids, hne⟩ := l.text_ne
  rw [Emit.step, if_neg hasks, if_neg hbids, if_neg hne, l.scanLevel_text]
  rfl

/-- The levels go to the side whose heading was last. -/
theorem Emit.foldl_text (ls : List LevelView) (inAsks : Bool) (asks bids : List (List Char)) :
    (ls.map LevelView.text).foldl Emit.step ⟨inAsks, !inAsks, asks, bids⟩ =
      ⟨inAsks, !inAsks, if inAsks then asks ++ ls.map LevelView.part else asks,
        if inAsks then bids else bids ++ ls.map LevelView.part⟩ := by
  induction ls generalizing asks bids with
  | nil => cases inAsks <;> simp
  | cons l ls ih =>
    rw [List.map_cons, List.foldl_cons, Emit.step_text]
    dsimp only
    rw [ih]
    cases inAsks <;> simp

/-- A text without control characters, which is one line. -/
def OneLine (cs : List Char) : Prop := ∀ c ∈ cs, ¬ c < ' '

/-- One line has no newline in it. -/
theorem OneLine.newline_notMem (h : OneLine cs) : '\n' ∉ cs := fun hmem => h _ hmem (by decide)

/-- Two parts of one line. -/
theorem oneLine_append : OneLine (cs ++ s) ↔ OneLine cs ∧ OneLine s := List.forall_mem_append

/-- A printed integer has no newline. -/
theorem oneLine_ofInt (z : Int) : OneLine (ofInt z) := by
  intro c hc
  rcases mem_ofInt hc with hd | rfl
  · simp only [Char.isDigit, ge_iff_le, Bool.and_eq_true, decide_eq_true_eq] at hd
    exact Char.not_lt.mpr (Char.le_trans (show ' ' ≤ '0' by decide) hd.1)
  · decide

/-- For literal texts the characters are checked one by one. -/
theorem oneLine_lit (text : String) (h : text.toList.all fun c => !decide (c < ' ')) :
    OneLine (lit text) := by
  intro c hc
  rw [lit_eq] at hc
  simpa using List.all_eq_true.mp h c hc

/-- A printed number has no newline. -/
theorem oneLine_digits (n : Nat) : OneLine (digits n) := oneLine_ofInt n

/-- A level is one line of the snapshot. -/
theorem LevelView.oneLine_text (l : LevelView) : OneLine l.text := by
  simp (disch := decide) only [LevelView.text, oneLine_append, oneLine_ofInt, oneLine_lit,
    oneLine_digits, and_self]

/-- Every line of the snapshot is one line. -/
theorem oneLine_snapshotLines (b : OrderBook) (d : Nat) {line : List Char}
    (h : line ∈ snapshotLines b d) : OneLine line := by
  have hlevels {ls : List LevelView} (hl : line ∈ ls.map LevelView.text) : OneLine line := by
    obtain ⟨l, -, rfl⟩ := List.mem_map.mp hl
    exact l.oneLine_text
  rcases List.mem_append.mp h with hasks | hbids
  · rcases List.mem_cons.mp hasks with rfl | hl
    · exact oneLine_lit "ASKS:" (by decide)
    · exact hlevels hl
  · rcases List.mem_cons.mp hbids with rfl | hl
    · exact oneLine_lit "BIDS:" (by decide)
    · exact hlevels hl

/-- A snapshot is printed in printable characters. -/
theorem printable_snapshot (b : OrderBook) (d : Nat) : ∀ c ∈ snapshot b d, Printable c := by
  intro c hc
  obtain ⟨line, hline, hc⟩ := List.mem_flatMap.mp hc
  rcases List.mem_append.mp hc with hc | hc
  · exact Or.inr (oneLine_snapshotLines b d hline c hc)
  · exact Or.inl (List.mem_singleton.mp hc)

/-- `emit_levels` finds the levels of both sides in a snapshot. -/
theorem emitLevels_snapshot (b : OrderBook) (d : Nat) : emitLevels (snapshot b d) =
    lit "\"asks\":[" ++ Json.join ((levels b .sell d).map LevelView.part) ++
      lit "],\"bids\":[" ++ Json.join ((levels b .buy d).map LevelView.part) ++ lit "]" := by
  have hlines : Text.lines (snapshot b d) = snapshotLines b d := by
    have happ := lines_flatMap (fun line hl => (oneLine_snapshotLines b d hl).newline_notMem) []
    rwa [List.append_nil, Text.lines, List.append_nil] at happ
  have hne : lit "BIDS:" ≠ lit "ASKS:" := by
    simp only [lit_eq, String.reduceToList]
    decide
  have hasks (w : Emit) : w.step (lit "ASKS:") = { w with inAsks := true, inBids := false } := by
    rw [Emit.step, if_pos rfl]
  have hbids (w : Emit) : w.step (lit "BIDS:") = { w with inAsks := false, inBids := true } := by
    rw [Emit.step, if_neg hne, if_pos rfl]
  have hsells := Emit.foldl_text (levels b .sell d) true [] []
  have hbuys := Emit.foldl_text (levels b .buy d) false ([] ++ (levels b .sell d).map
    LevelView.part) []
  simp only [Bool.not_true, Bool.not_false, if_true, Bool.false_eq_true, if_false]
    at hsells hbuys
  rw [emitLevels, hlines, snapshotLines, List.cons_append, List.foldl_cons, List.foldl_append,
    List.foldl_cons, hasks, hsells, hbids, hbuys]
  rfl

/-- The fields of an answer in a value. -/
def fields (r : Reply) (lat : Nat) (snap err : List Char) : List (List Char × Json) :=
  [(lit "ok", .bool r.ok), (lit "id", .int r.id), (lit "latency_ns", .int lat),
    (lit "fills", .arr (r.fills.map FillView.json)), (lit "asks", .arr (r.asks.map LevelView.json)),
    (lit "bids", .arr (r.bids.map LevelView.json)), (lit "snapshot", .str snap)] ++
    if err = [] then [] else [(lit "error", .str err)]

/-- Texts made one by one read one by one. -/
theorem forall₂_map {α : Type} {f : α → Json} {g : α → List Char} (h : ∀ x, Reads (f x) (g x))
    (xs : List α) : List.Forall₂ Reads (xs.map f) (xs.map g) := by
  rw [List.forall₂_map_left_iff, List.forall₂_map_right_iff, List.forall₂_same]
  exact fun x _ => h x

/-- The printed level reads as the clamped one. -/
theorem LevelView.reads_clamp (l : LevelView) : Reads l.clamp.json l.part := by
  have hn : (l.clamp.n : Int) = Text.clamp l.n := by
    have hpos : 0 ≤ Text.clamp l.n := by
      unfold Text.clamp
      omega
    exact Int.toNat_of_nonneg hpos
  have hreads := l.clamp.reads_part
  rwa [hn] at hreads

/-- The texts of the fields of an answer. -/
def fieldTexts (b : OrderBook) (ok : Bool) (id lat : Nat) (fills : List FillView)
    (err : List Char) : List (List Char) :=
  ['"' :: lit "ok" ++ '"' :: ':' :: (if ok then lit "true" else lit "false"),
    '"' :: lit "id" ++ '"' :: ':' :: digits id,
    '"' :: lit "latency_ns" ++ '"' :: ':' :: digits lat,
    '"' :: lit "fills" ++ '"' :: ':' :: ('[' :: Json.join (fills.map FillView.part) ++ [']']),
    '"' :: lit "asks" ++ '"' :: ':' ::
      ('[' :: Json.join ((levels b .sell kDepth).map LevelView.part) ++ [']']),
    '"' :: lit "bids" ++ '"' :: ':' ::
      ('[' :: Json.join ((levels b .buy kDepth).map LevelView.part) ++ [']']),
    '"' :: lit "snapshot" ++ '"' :: ':' :: ('"' :: jsonEscape (snapshot b kDepth) ++ ['"'])] ++
    if err = [] then [] else ['"' :: lit "error" ++ '"' :: ':' :: ('"' :: jsonEscape err ++ ['"'])]

/-- An answer is an object of its fields. -/
theorem answer_eq (b : OrderBook) (ok : Bool) (id lat : Nat) (fills : List FillView)
    (err : List Char) : answer ok id lat fills (snapshot b kDepth) err =
      '{' :: Json.join (fieldTexts b ok id lat fills err) ++ ['}'] := by
  rw [answer, emitLevels_snapshot, fieldTexts]
  simp only [Json.join, lit_eq, String.reduceToList, List.append_assoc, List.cons_append,
    List.nil_append, List.flatMap_cons]
  by_cases herr : err = []
  · simp only [herr, if_true, List.flatMap_nil, List.nil_append]
  · simp only [herr, if_false, List.flatMap_cons, List.flatMap_nil, List.append_nil,
      List.cons_append, List.append_assoc]

/-- The text of an answer is an object. -/
theorem reads_answer (e : MatchingEngine) (ok : Bool) (id lat : Nat) (fills : List Fill)
    {err : List Char} (herr : ∀ c ∈ err, Printable c) :
    Reads (.obj (fields (reply e ok id fills).clamp lat (snapshot e.book kDepth) err))
      (answer ok id lat (reply e ok id fills).fills (snapshot e.book kDepth) err) := by
  have hlevels (s : Side) : Reads
      (.arr (((levels e.book s kDepth).map LevelView.clamp).map LevelView.json))
      ('[' :: Json.join ((levels e.book s kDepth).map LevelView.part) ++ [']']) := by
    rw [List.map_map]
    exact Json.reads_arr (forall₂_map LevelView.reads_clamp _)
  rw [answer_eq]
  refine Json.reads_obj (List.rel_append
    (.cons (reads_field (by simp [lit_eq]) (Json.reads_bool ok))
    (.cons (reads_field (by simp [lit_eq]) (Json.reads_int id))
    (.cons (reads_field (by simp [lit_eq]) (Json.reads_int lat))
    (.cons (reads_field (by simp [lit_eq]) (Json.reads_arr (forall₂_map FillView.reads_part _)))
    (.cons (reads_field (by simp [lit_eq]) (hlevels .sell))
    (.cons (reads_field (by simp [lit_eq]) (hlevels .buy))
    (.cons (reads_field (by simp [lit_eq])
      (quotes_jsonEscape (printable_snapshot e.book kDepth)).reads) .nil))))))) ?_)
  split
  · exact .nil
  · exact .cons (reads_field (by simp [lit_eq]) (quotes_jsonEscape herr).reads) .nil

/-- What the page looks for is in the fields, whether or not there is an error. -/
theorem get_fields (r : Reply) (lat : Nat) (snap err : List Char) :
    let v := Json.obj (fields r lat snap err)
    v.getBool (lit "ok") = some r.ok ∧ v.getNat (lit "id") = some r.id ∧
      v.getArr (lit "fills") = some (r.fills.map FillView.json) ∧
      v.getArr (lit "asks") = some (r.asks.map LevelView.json) ∧
      v.getArr (lit "bids") = some (r.bids.map LevelView.json) := by
  unfold fields
  split
  · simp only [lit_eq, String.reduceToList]
    exact ⟨rfl, rfl, rfl, rfl, rfl⟩
  · simp only [lit_eq, String.reduceToList]
    exact ⟨rfl, rfl, rfl, rfl, rfl⟩

/-- A list is read back element by element. -/
theorem mapM_map {α : Type} {f : α → Json} {g : Json → Option α} (h : ∀ x, g (f x) = some x)
    (xs : List α) : (xs.map f).mapM g = some xs := by
  induction xs with
  | nil => rfl
  | cons x xs ih => rw [List.map_cons, List.mapM_cons, h, ih]; rfl

/-- The page finds its reply among the fields. -/
theorem ofJson_fields (r : Reply) (lat : Nat) (snap err : List Char) :
    Reply.ofJson (.obj (fields r lat snap err)) = some r := by
  obtain ⟨hok, hid, hfills, hasks, hbids⟩ := get_fields r lat snap err
  simp only [Reply.ofJson, hok, hid, hfills, hasks, hbids, Option.bind_eq_bind, Option.bind_some,
    mapM_map FillView.ofJson_json, mapM_map LevelView.ofJson_json, Option.pure_def]

/-- The page finds the reply in the line. -/
theorem page_answer (e : MatchingEngine) (ok : Bool) (id lat : Nat) (fills : List Fill)
    {err ws : List Char} (herr : ∀ c ∈ err, Printable c) (hws : ∀ c ∈ ws, Json.isBlank c = true) :
    page (answer ok id lat (reply e ok id fills).fills (snapshot e.book kDepth) err ++ ws) =
      some (reply e ok id fills).clamp := by
  rw [page, (reads_answer e ok id lat fills herr).loads hws, Option.bind_some, ofJson_fields]

/-- A printed level object is one line. -/
theorem oneLine_levelPart (px qty n : Int) : OneLine (levelPart px qty n) := by
  simp (disch := decide) only [levelPart, oneLine_append, oneLine_ofInt, oneLine_lit, and_self]

/-- A printed fill object is one line. -/
theorem FillView.oneLine_part (f : FillView) : OneLine f.part := by
  simp (disch := decide) only [FillView.part, oneLine_append, oneLine_ofInt, oneLine_lit,
    oneLine_digits, and_self]

/-- Parts of one line, joined by commas. -/
theorem oneLine_join {ts : List (List Char)} (h : ∀ t ∈ ts, OneLine t) :
    OneLine (Json.join ts) := by
  cases ts with
  | nil => exact List.forall_mem_nil _
  | cons t ts =>
    rw [List.forall_mem_cons] at h
    refine oneLine_append.mpr ⟨h.1, fun c hc => ?_⟩
    obtain ⟨u, hu, hc⟩ := List.mem_flatMap.mp hc
    rcases List.mem_cons.mp hc with rfl | hc
    · decide
    · exact h.2 u hu c hc

/-- `json_escape` leaves no newline. -/
theorem oneLine_jsonEscape (h : ∀ c ∈ s, Printable c) : OneLine (jsonEscape s) := by
  intro d hd
  obtain ⟨c, hc, hd⟩ := List.mem_flatMap.mp hd
  split at hd
  · exact oneLine_lit "\\n" (by decide) d hd
  split at hd
  · exact oneLine_lit "\\\"" (by decide) d hd
  split at hd
  · exact oneLine_lit "\\\\" (by decide) d hd
  · next hn _ _ =>
    rw [List.mem_singleton.mp hd]
    exact (h c hc).resolve_left hn

/-- An answer is one line. -/
theorem oneLine_answer (b : OrderBook) (ok : Bool) (id lat : Nat) (fills : List FillView)
    {err : List Char} (herr : ∀ c ∈ err, Printable c) :
    OneLine (answer ok id lat fills (snapshot b kDepth) err) := by
  have hfills : OneLine (Json.join (fills.map FillView.part)) :=
    oneLine_join (List.forall_mem_map.mpr fun f _ => f.oneLine_part)
  have hlevels (s : Side) : OneLine (Json.join ((levels b s kDepth).map LevelView.part)) :=
    oneLine_join (List.forall_mem_map.mpr fun l _ => oneLine_levelPart _ _ _)
  have hsnap := oneLine_jsonEscape (printable_snapshot b kDepth)
  have hok : OneLine (if ok then lit "true" else lit "false") := by
    cases ok with
    | false => exact oneLine_lit "false" (by decide)
    | true => exact oneLine_lit "true" (by decide)
  have herror : OneLine
      (if err = [] then [] else lit ",\"error\":\"" ++ jsonEscape err ++ lit "\"") := by
    split
    · exact List.forall_mem_nil _
    · simp (disch := decide) only [oneLine_append, oneLine_lit, oneLine_jsonEscape herr, and_self]
  simp (disch := decide) only [answer, emitLevels_snapshot, oneLine_append, oneLine_lit,
    oneLine_digits, hok, hfills, hlevels, hsnap, herror, and_self]

/-- Every reply shows the book behind it. -/
theorem execute_reply (e : MatchingEngine) (c : Command) : ∃ ok id fills,
    (execute e c).2 = reply (execute e c).1 ok id fills := by
  cases c with
  | limit side price qty => exact ⟨_, _, _, rfl⟩
  | market side qty => exact ⟨_, _, _, rfl⟩
  | cancel id => exact ⟨_, _, _, rfl⟩
  | snap => exact ⟨_, _, _, rfl⟩

/-- The answer to a command is a line that the page finds the reply in. -/
theorem answer_execute (e : MatchingEngine) (c : Command) (lat : Nat) :
    let line := answer (execute e c).2.ok (execute e c).2.id lat (execute e c).2.fills
      (snapshot (execute e c).1.book kDepth) []
    OneLine line ∧ ∀ ws : List Char, (∀ c ∈ ws, Json.isBlank c = true) →
      page (line ++ ws) = some (execute e c).2.clamp := by
  obtain ⟨ok, id, fills, heq⟩ := execute_reply e c
  rw [heq]
  exact ⟨oneLine_answer _ _ _ _ _ (List.forall_mem_nil _),
    fun ws hws => page_answer _ _ _ _ _ (List.forall_mem_nil _) hws⟩

/-- The answer to an unknown command. -/
theorem answer_unknown (e : MatchingEngine) :
    let line := answer false 0 0 [] (snapshot e.book kDepth) (lit "unknown command")
    OneLine line ∧ page line = some (reply e false 0 []).clamp := by
  have herr : ∀ c ∈ lit "unknown command", Printable c :=
    fun c hc => Or.inr (oneLine_lit "unknown command" (by decide) c hc)
  refine ⟨oneLine_answer _ _ _ _ _ herr, ?_⟩
  have hpage := page_answer e false 0 0 [] herr (List.forall_mem_nil _)
  rwa [List.append_nil] at hpage

/-- The first line of the output is the first answer. -/
theorem lines_answer {line : List Char} (h : OneLine line) (out : List Char) :
    (Text.lines ((line ++ ['\n']) ++ out)).map page =
      page line :: (Text.lines out).map page := by
  rw [List.append_assoc, List.singleton_append, lines_append h.newline_notMem, List.map_cons]

/-- Whatever the lines of the input, each that is not empty is answered with one line, up to the
one that ends the process, and the page finds in the answers what the engine replied. -/
theorem page_main (e : MatchingEngine) (input : List (List Char × Nat)) :
    (Text.lines (main e input).2).map page =
      (replies e (input.map Prod.fst)).map fun r => some r.clamp := by
  induction input generalizing e with
  | nil => rfl
  | cons cmd input ih =>
    obtain ⟨line, lat⟩ := cmd
    rw [main, iteration, List.map_cons, replies]
    cases read line with
    | blank => exact ih e
    | quit => rfl
    | unknown =>
      obtain ⟨hline, hpage⟩ := answer_unknown e
      exact (lines_answer hline _).trans (List.cons_eq_cons.mpr ⟨hpage, ih e⟩)
    | command c =>
      obtain ⟨hline, hpage⟩ := answer_execute e c (if c = .snap then 0 else lat)
      have hpage := hpage [] (List.forall_mem_nil _)
      rw [List.append_nil] at hpage
      exact (lines_answer hline _).trans (List.cons_eq_cons.mpr ⟨hpage, ih _⟩)

end Lob.Demo
