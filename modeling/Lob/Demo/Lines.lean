import Lob.Core.Json
import Lob.Demo.Backends

/-!
# The lines between the page's server and `lob_demo`

`CppBook` writes a command a line. `lob_demo` reads the lines, prints its snapshot
as text, takes the levels out of that text again and answers with JSON on a line.
-/

namespace Lob.Demo

open Text

/-- What `main` makes of a line. -/
inductive Reading where
  /-- An empty line, which is passed over. -/
  | blank
  | quit
  | unknown
  | command (c : Command)
  deriving DecidableEq, Repr

/-- The word in capitals. -/
def upper (w : List Char) : List Char := w.map Char.toUpper

/-- The side that a word names. -/
def sideOf (w : List Char) : Side :=
  if upper w = lit "SELL" ∨ upper w = lit "S" then .sell else .buy

/-- The line as `main` reads it. -/
def read (line : List Char) : Reading :=
  if line = [] then .blank
  else
    let (cmd, iss) := Stream.word ⟨line, false⟩
    if upper cmd = lit "LIMIT" then
      let (side, iss) := iss.word
      let (px, iss) := iss.longlong
      let (qty, _) := iss.longlong
      .command (.limit (sideOf side) px (.ofInt qty))
    else if upper cmd = lit "MARKET" then
      let (side, iss) := iss.word
      let (qty, _) := iss.longlong
      .command (.market (sideOf side) (.ofInt qty))
    else if upper cmd = lit "CANCEL" then
      let (cid, _) := iss.ulonglong
      .command (.cancel cid)
    else if upper cmd = lit "SNAP" then .command .snap
    else if upper cmd = lit "QUIT" ∨ upper cmd = lit "EXIT" then .quit
    else .unknown

/-- A level as `snapshot` prints it, without the newline. -/
def LevelView.text (l : LevelView) : List Char :=
  ofInt l.price ++ lit " qty=" ++ ofInt l.qty ++ lit " orders=" ++ digits l.n

/-- The lines of `OrderBook::snapshot`. -/
def snapshotLines (b : OrderBook) (maxLevels : Nat) : List (List Char) :=
  lit "ASKS:" :: (levels b .sell maxLevels).map LevelView.text ++
    lit "BIDS:" :: (levels b .buy maxLevels).map LevelView.text

/-- `OrderBook::snapshot`. -/
def snapshot (b : OrderBook) (maxLevels : Nat) : List Char :=
  (snapshotLines b maxLevels).flatMap fun line => line ++ ['\n']

/-- `%lld`. -/
def scanLld (cs : List Char) : Option (Int × List Char) :=
  (scanInt (cs.dropWhile isSpace)).map fun r => (clamp r.1, r.2)

/-- Literal text of a format with a space in front. -/
def scanLiteral (text cs : List Char) : Option (List Char) :=
  let cs := cs.dropWhile isSpace
  if text <+: cs then some (cs.drop text.length) else none

/-- The numbers of a level, when `sscanf` finds all three with `%lld qty=%lld orders=%lld`. -/
def scanLevel (line : List Char) : Option (Int × Int × Int) := do
  let (px, cs) ← scanLld line
  let cs ← scanLiteral (lit "qty=") cs
  let (qty, cs) ← scanLld cs
  let cs ← scanLiteral (lit "orders=") cs
  let (n, _) ← scanLld cs
  return (px, qty, n)

/-- The variables of the loop of `emit_levels`. -/
structure Emit where
  inAsks : Bool := false
  inBids : Bool := false
  askParts : List (List Char) := []
  bidParts : List (List Char) := []

/-- A level as JSON. -/
def levelPart (px qty n : Int) : List Char :=
  lit "\x7b\"price\":" ++ ofInt px ++ lit ",\"qty\":" ++ ofInt qty ++ lit ",\"n\":" ++
    ofInt n ++ lit "\x7d"

/-- One iteration of the loop of `emit_levels`. -/
def Emit.step (w : Emit) (line : List Char) : Emit :=
  if line = lit "ASKS:" then { w with inAsks := true, inBids := false }
  else if line = lit "BIDS:" then { w with inAsks := false, inBids := true }
  else if line = [] then w
  else
    match scanLevel line with
    | none => w
    | some (px, qty, n) =>
      { w with
        askParts := if w.inAsks then w.askParts ++ [levelPart px qty n] else w.askParts
        bidParts := if w.inBids then w.bidParts ++ [levelPart px qty n] else w.bidParts }

/-- `emit_levels`. -/
def emitLevels (snap : List Char) : List Char :=
  let w := (Text.lines snap).foldl Emit.step {}
  lit "\"asks\":[" ++ Json.join w.askParts ++ lit "],\"bids\":[" ++ Json.join w.bidParts ++
    lit "]"

/-- `json_escape`. -/
def jsonEscape (s : List Char) : List Char :=
  s.flatMap fun c =>
    if c = '\n' then lit "\\n"
    else if c = '"' then lit "\\\""
    else if c = '\\' then lit "\\\\"
    else [c]

/-- A fill as JSON. -/
def FillView.part (f : FillView) : List Char :=
  lit "\x7b\"id\":" ++ digits f.id ++ lit ",\"price\":" ++ ofInt f.price ++
    lit ",\"qty\":" ++ ofInt f.qty ++ lit "\x7d"

/-- The line that `main` prints with `--json`, without the newline. -/
def answer (ok : Bool) (id lat : Nat) (fills : List FillView) (snap err : List Char) : List Char :=
  lit "\x7b\"ok\":" ++ (if ok then lit "true" else lit "false") ++
    lit ",\"id\":" ++ digits id ++ lit ",\"latency_ns\":" ++ digits lat ++
    lit ",\"fills\":[" ++ Json.join (fills.map FillView.part) ++ lit "]," ++
    emitLevels snap ++ lit ",\"snapshot\":\"" ++ jsonEscape snap ++ lit "\"" ++
    (if err = [] then [] else lit ",\"error\":\"" ++ jsonEscape err ++ lit "\"") ++
    lit "\x7d"

/-- One iteration of the loop of `main` with `--json`: the engine behind it, unless the loop ends,
and what is printed. The clock gives the latency `lat`. -/
def iteration (e : MatchingEngine) (line : List Char) (lat : Nat) :
    Option MatchingEngine × List Char :=
  match read line with
  | .blank => (some e, [])
  | .quit => (none, [])
  | .unknown =>
    (some e, answer false 0 0 [] (snapshot e.book kDepth) (lit "unknown command") ++ ['\n'])
  | .command c =>
    let (e, r) := execute e c
    let lat := if c = .snap then 0 else lat
    (some e, answer r.ok r.id lat r.fills (snapshot e.book kDepth) [] ++ ['\n'])

/-- `main` on the lines of its input, with the latencies that the clock gives: the engine behind
them, unless the process has ended, and what is printed. -/
def main (e : MatchingEngine) : List (List Char × Nat) → Option MatchingEngine × List Char
  | [] => (some e, [])
  | (line, lat) :: input =>
    match iteration e line lat with
    | (none, out) => (none, out)
    | (some e, out) =>
      let (e, out') := main e input
      (e, out ++ out')

/-- A side in a command. -/
def sideWord : Side → List Char
  | .buy => lit "BUY"
  | .sell => lit "SELL"

def limitLine (side : Side) (price qty : Int) : List Char :=
  lit "LIMIT " ++ sideWord side ++ lit " " ++ ofInt price ++ lit " " ++ ofInt qty

def marketLine (side : Side) (qty : Int) : List Char :=
  lit "MARKET " ++ sideWord side ++ lit " " ++ ofInt qty

def cancelLine (id : Nat) : List Char := lit "CANCEL " ++ digits id

/-- The lines that `CppBook.handle` writes. -/
def Request.lines : Request → List (List Char)
  | .reset | .other => [lit "SNAP"]
  | .seed =>
    lit "SNAP" :: (List.range' 1 8).flatMap fun i : Nat =>
      [limitLine .buy (10000 - i) (5 + i), limitLine .sell (10000 + i) (5 + i)]
  | .limit side price qty => [limitLine side price qty]
  | .market side qty => [marketLine side qty]
  | .cancel id => [cancelLine id]

/-- The process that gets the lines. A reset and a seed start a new one. -/
def Request.begin (p : Option MatchingEngine) : Request → Option MatchingEngine
  | .reset | .seed => some start
  | .limit .. | .market .. | .cancel _ | .other => p

/-- `readline`. -/
def readline (out : List Char) : List Char :=
  out.takeWhile (· ≠ '\n') ++ (out.dropWhile (· ≠ '\n')).take 1

/-- A level as the page finds it. -/
def LevelView.ofJson (v : Json) : Option LevelView := do
  let price ← v.getInt (lit "price")
  let qty ← v.getInt (lit "qty")
  let n ← v.getNat (lit "n")
  return ⟨price, qty, n⟩

/-- A fill as the page finds it. -/
def FillView.ofJson (v : Json) : Option FillView := do
  let id ← v.getNat (lit "id")
  let price ← v.getInt (lit "price")
  let qty ← v.getInt (lit "qty")
  return ⟨id, price, qty⟩

/-- A reply as the page finds it. -/
def Reply.ofJson (v : Json) : Option Reply := do
  let ok ← v.getBool (lit "ok")
  let id ← v.getNat (lit "id")
  let fills ← (← v.getArr (lit "fills")).mapM FillView.ofJson
  let asks ← (← v.getArr (lit "asks")).mapM LevelView.ofJson
  let bids ← (← v.getArr (lit "bids")).mapM LevelView.ofJson
  return ⟨ok, id, fills, asks, bids⟩

/-- The reply in a line that the server loads. -/
def page (raw : List Char) : Option Reply := (Json.loads raw).bind Reply.ofJson

/-- `CppBook._line` on a running process. -/
def writeLine (e : MatchingEngine) (cmd : List Char) (lat : Nat) :
    Option MatchingEngine × Option Reply :=
  let (e, out) := main e ((Text.lines (cmd ++ ['\n'])).map fun line => (line, lat))
  (e, page (readline out))

/-- `CppBook.handle` with the text that it exchanges. The clock gives `lat` at each line. -/
def exchange (p : Option MatchingEngine) (r : Request) (lat : Nat → Nat) :
    Option MatchingEngine × Option Reply :=
  r.lines.zipIdx.foldl (fun s cmd => match s.1 with
    | none => (none, none)
    | some e => writeLine e cmd.1 (lat cmd.2)) (r.begin p, none)

end Lob.Demo
