import Lob.Demo.Agreement
import Lob.Demo.Answers

/-!
# The page over `lob_demo`

The commands that the server writes are read as they were meant, and the answers
show the book as it is while every number fits. So over the text that they
exchange the page sees of `lob_demo` what it sees of the toy book.
-/

namespace Lob.Demo

open Text
open Queue (Level)

variable {e : MatchingEngine} {t : ToyBook} {side s : Side} {price qty : Int} {id : Nat}
  {r : Request} {cs rest : List Char}

/-- A literal word is read back. -/
theorem word_lit (text : String)
    (h : (!text.toList.isEmpty && text.toList.all fun c => !isSpace c) = true)
    (hrest : Ends (!isSpace ·) rest) :
    Stream.word ⟨lit text ++ rest, false⟩ = (lit text, ⟨rest, false⟩) := by
  rw [Bool.and_eq_true, Bool.not_eq_true', List.isEmpty_eq_false_iff, List.all_eq_true] at h
  rw [lit_eq]
  exact Stream.word_append h.1 (fun c hc => by simpa using h.2 c hc) hrest

/-- A space ends a word. -/
theorem ends_word (cs : List Char) : Ends (!isSpace ·) (' ' :: cs) := ends_cons (by decide) cs

/-- A printed side is read back. -/
theorem sideOf_sideWord (side : Side) : sideOf (sideWord side) = side := by
  cases side with
  | buy =>
    simp only [sideOf, sideWord, upper, lit_eq, String.reduceToList]
    rfl
  | sell =>
    simp only [sideOf, sideWord, upper, lit_eq, String.reduceToList]
    rfl

/-- The side is the word behind a space. -/
theorem word_sideWord (side : Side) (cs : List Char) :
    Stream.word ⟨' ' :: (sideWord side ++ ' ' :: cs), false⟩ =
      (sideWord side, ⟨' ' :: cs, false⟩) := by
  rw [Stream.word_space]
  cases side with
  | buy => exact word_lit "BUY" (by decide) (ends_word cs)
  | sell => exact word_lit "SELL" (by decide) (ends_word cs)

/-- A printed number behind a space is read back. -/
theorem longlong_field (z : Int) (hz : Signed z) (h : Ends Char.isDigit rest) :
    Stream.longlong ⟨' ' :: (ofInt z ++ rest), false⟩ = (z, ⟨rest, false⟩) := by
  rw [Stream.longlong_space, Stream.longlong_ofInt hz h]

/-- Words in capitals stay as they are. -/
theorem upper_lit (text : String) (h : text.toList.map Char.toUpper = text.toList) :
    upper (lit text) = lit text := by
  rw [upper, lit_eq]
  exact h

/-- The line of a limit order is its command. -/
theorem read_limitLine (hp : Signed price) (hq : Signed qty) :
    read (limitLine side price qty) = .command (.limit side price (.ofInt qty)) := by
  have hline : limitLine side price qty = lit "LIMIT" ++
      ' ' :: (sideWord side ++ ' ' :: (ofInt price ++ ' ' :: (ofInt qty ++ []))) := by
    simp [limitLine, lit_eq]
  have hne : limitLine side price qty ≠ [] := by simp [hline]
  have hcmd := word_lit "LIMIT" (by decide)
    (ends_word (sideWord side ++ ' ' :: (ofInt price ++ ' ' :: (ofInt qty ++ []))))
  have hprice := longlong_field price hp (ends_space (ofInt qty ++ []))
  rw [read, if_neg hne, hline, hcmd]
  simp only [upper_lit "LIMIT" (by decide), if_true, word_sideWord, sideOf_sideWord, hprice,
    longlong_field qty hq (ends_nil _)]

/-- The line of a market order is its command. -/
theorem read_marketLine (hq : Signed qty) :
    read (marketLine side qty) = .command (.market side (.ofInt qty)) := by
  have hline : marketLine side qty =
      lit "MARKET" ++ ' ' :: (sideWord side ++ ' ' :: (ofInt qty ++ [])) := by
    simp [marketLine, lit_eq]
  have hne : marketLine side qty ≠ [] := by simp [hline]
  have hcmd := word_lit "MARKET" (by decide)
    (ends_word (sideWord side ++ ' ' :: (ofInt qty ++ [])))
  have hlimit : lit "MARKET" ≠ lit "LIMIT" := by simp [lit_eq]
  rw [read, if_neg hne, hline, hcmd]
  simp only [upper_lit "MARKET" (by decide), if_neg hlimit, if_true, word_sideWord,
    sideOf_sideWord, longlong_field qty hq (ends_nil _)]

/-- The line of a cancel is its command. -/
theorem read_cancelLine (hid : id < 2 ^ 64) : read (cancelLine id) = .command (.cancel id) := by
  have hline : cancelLine id = lit "CANCEL" ++ ' ' :: (digits id ++ []) := by
    simp [cancelLine, lit_eq]
  have hne : cancelLine id ≠ [] := by simp [hline]
  have hcmd := word_lit "CANCEL" (by decide) (ends_word (digits id ++ []))
  have hlimit : lit "CANCEL" ≠ lit "LIMIT" := by simp [lit_eq]
  have hmarket : lit "CANCEL" ≠ lit "MARKET" := by simp [lit_eq]
  rw [read, if_neg hne, hline, hcmd]
  simp only [upper_lit "CANCEL" (by decide), if_neg hlimit, if_neg hmarket, if_true,
    Stream.ulonglong_space, Stream.ulonglong_digits hid (ends_nil _)]

/-- `SNAP` is read as itself. -/
theorem read_snap : read (lit "SNAP") = .command .snap := by
  have hne : lit "SNAP" ≠ [] := by simp [lit_eq]
  have hcmd := word_lit "SNAP" (by decide) (ends_nil _)
  have hlimit : lit "SNAP" ≠ lit "LIMIT" := by simp [lit_eq]
  have hmarket : lit "SNAP" ≠ lit "MARKET" := by simp [lit_eq]
  have hcancel : lit "SNAP" ≠ lit "CANCEL" := by simp [lit_eq]
  rw [List.append_nil] at hcmd
  rw [read, if_neg hne, hcmd]
  simp only [upper_lit "SNAP" (by decide), if_neg hlimit, if_neg hmarket, if_neg hcancel, if_true]

/-- Numbers that `lob_demo` can read. -/
def Request.Fits : Request → Prop
  | .limit _ price qty => Signed price ∧ Signed qty
  | .market _ qty => Signed qty
  | .cancel id => id < 2 ^ 64
  | .reset | .seed | .other => True

instance (z : Int) : Decidable (Signed z) := inferInstanceAs (Decidable (_ ∧ _))

instance (r : Request) : Decidable r.Fits :=
  match r with
  | .limit _ price qty => inferInstanceAs (Decidable (Signed price ∧ Signed qty))
  | .market _ qty => inferInstanceAs (Decidable (Signed qty))
  | .cancel id => Nat.decLt id (2 ^ 64)
  | .reset | .seed | .other => .isTrue trivial

/-- A line that is read as a command is answered with its reply. -/
theorem writeLine_eq {cmd : List Char} {c : Command} (hline : OneLine cmd)
    (hread : read cmd = .command c) (e : MatchingEngine) (lat : Nat) :
    writeLine e cmd lat = (some (execute e c).1, some (execute e c).2.clamp) := by
  obtain ⟨hone, hpage⟩ := answer_execute e c (if c = .snap then 0 else lat)
  have hpage := hpage ['\n'] (List.forall_mem_singleton.mpr rfl)
  have hlines : Text.lines (cmd ++ ['\n']) = [cmd] := lines_append hline.newline_notMem []
  have hreadline {line : List Char} (h : OneLine line) :
      readline (line ++ ['\n']) = line ++ ['\n'] := by
    have hall : ∀ d ∈ line, decide (d ≠ '\n') = true := by
      intro d hd
      exact decide_eq_true fun heq => h.newline_notMem (heq ▸ hd)
    have hends : Ends (fun d => decide (d ≠ '\n')) ['\n'] := ends_cons (by decide) _
    rw [readline, takeWhile_append hall hends, dropWhile_append hall hends]
    rfl
  rw [writeLine, hlines, List.map_singleton, main, iteration, hread]
  simp only [main, List.append_nil, hreadline hone, hpage]

/-- The lines that are written one after the other, the first when the process is at `p`. -/
theorem foldl_writeLine {ls : List (List Char)} {cmds : List Command}
    (h : List.Forall₂ (fun l c => OneLine l ∧ read l = .command c) ls cmds) (lat : Nat → Nat)
    (v : MatchingEngine × Reply) (k : Nat) :
    (ls.zipIdx k).foldl (fun s cmd => match s.1 with
      | none => (none, none)
      | some e => writeLine e cmd.1 (lat cmd.2)) (some v.1, some v.2.clamp) =
      (some (cmds.foldl (fun v c => execute v.1 c) v).1,
        some (cmds.foldl (fun v c => execute v.1 c) v).2.clamp) := by
  induction h generalizing v k with
  | nil => rfl
  | cons hl _ ih =>
    rw [List.zipIdx_cons, List.foldl_cons, List.foldl_cons]
    dsimp only
    rw [writeLine_eq hl.1 hl.2]
    exact ih _ _

/-- A limit order is sent in one line. -/
theorem oneLine_limitLine (side : Side) (price qty : Int) : OneLine (limitLine side price qty) := by
  cases side <;>
    simp (disch := decide) only [limitLine, sideWord, oneLine_append, oneLine_lit, oneLine_ofInt,
      and_self]

/-- A market order is sent in one line. -/
theorem oneLine_marketLine (side : Side) (qty : Int) : OneLine (marketLine side qty) := by
  cases side <;>
    simp (disch := decide) only [marketLine, sideWord, oneLine_append, oneLine_lit, oneLine_ofInt,
      and_self]

/-- A cancel is sent in one line. -/
theorem oneLine_cancelLine (id : Nat) : OneLine (cancelLine id) := by
  simp (disch := decide) only [cancelLine, oneLine_append, oneLine_lit, oneLine_digits, and_self]

/-- Lists made piece by piece are related when the pieces are. -/
theorem forall₂_flatMap {ι α β : Type} {R : α → β → Prop} {f : ι → List α} {g : ι → List β}
    {is : List ι} (h : ∀ i ∈ is, List.Forall₂ R (f i) (g i)) :
    List.Forall₂ R (is.flatMap f) (is.flatMap g) := by
  induction is with
  | nil => exact .nil
  | cons i is ih =>
    rw [List.forall_mem_cons] at h
    exact List.rel_append h.1 (ih h.2)

/-- The lines of a seed are read as its limit orders. -/
theorem forall₂_seedLines :
    List.Forall₂ (fun l c => OneLine l ∧ read l = .command c)
      ((List.range' 1 8).flatMap fun i : Nat =>
        [limitLine .buy (10000 - i) (5 + i), limitLine .sell (10000 + i) (5 + i)]) seedLines := by
  refine forall₂_flatMap fun i hi => ?_
  rw [List.mem_range'_1] at hi
  have hb : Signed (10000 - i : Int) ∧ Signed (10000 + i : Int) ∧ Signed (5 + i : Int) := by
    unfold Signed
    omega
  exact .cons ⟨oneLine_limitLine _ _ _, read_limitLine hb.1 hb.2.2⟩
    (.cons ⟨oneLine_limitLine _ _ _, read_limitLine hb.2.1 hb.2.2⟩ .nil)

/-- Over the text the page finds the replies of `lob_demo`, as `emit_levels` leaves them. -/
theorem exchange_eq (e : MatchingEngine) (hr : r.Fits) (lat : Nat → Nat) :
    exchange (some e) r lat =
      (some (Demo.handle e r).1, some (Demo.handle e r).2.clamp) := by
  have hsnap : OneLine (lit "SNAP") := oneLine_lit "SNAP" (by decide)
  cases r with
  | reset => exact writeLine_eq hsnap read_snap start (lat 0)
  | other => exact writeLine_eq hsnap read_snap e (lat 0)
  | limit side price qty =>
    exact writeLine_eq (oneLine_limitLine _ _ _) (read_limitLine hr.1 hr.2) e (lat 0)
  | market side qty => exact writeLine_eq (oneLine_marketLine _ _) (read_marketLine hr) e (lat 0)
  | cancel id => exact writeLine_eq (oneLine_cancelLine _) (read_cancelLine hr) e (lat 0)
  | seed =>
    rw [exchange, Request.lines, List.zipIdx_cons, List.foldl_cons]
    dsimp only [Request.begin]
    rw [writeLine_eq hsnap read_snap start (lat 0)]
    exact foldl_writeLine forall₂_seedLines lat _ _

/-- The prices of a toy book that `lob_demo` can print and read. -/
def ToyBook.Fits (t : ToyBook) : Prop := ∀ s, ∀ px ∈ t.side s, Signed px

/-- The loop of `market` adds no price. -/
theorem mem_step {w : Take} {px : Int} (h : px ∈ (w.step s).opp) : px ∈ w.opp := by
  unfold Take.step at h
  split at h
  · exact h
  · next k _ =>
    split at h
    · exact h
    · exact h
    · next o rest hlookup =>
      have hk : k ∈ w.opp := AList.lookup_isSome.mp (by rw [hlookup]; rfl)
      dsimp only at h
      generalize (if o.qty - min w.left o.qty = 0 then rest else _) = os at h
      split at h
      · exact (AList.mem_erase.mp h).2
      · rcases (AList.mem_insert _).mp h with rfl | h
        · exact hk
        · exact h

/-- A market order adds no price to the side it takes from. -/
theorem ToyBook.Fits.market (h : t.Fits) (side : Side) (qty : Int) :
    ∀ px ∈ (t.take side qty).opp, Signed px := by
  have hstep (w : Take) (hw : ∀ px ∈ w.opp, Signed px) (_ : w.active = true) :
      ∀ px ∈ (w.step side.opposite).opp, Signed px :=
    fun px hpx => hw px (mem_step hpx)
  exact Loop.run_invariant (I := fun w : Take => ∀ px ∈ w.opp, Signed px) hstep
    (h side.opposite) _

/-- A side whose prices fit. -/
theorem ToyBook.Fits.setSide (h : t.Fits) {d : Levels} (hd : ∀ px ∈ d, Signed px) (side : Side) :
    (t.setSide side d).Fits := by
  intro s px hpx
  by_cases hs : s = side
  · rw [hs, side_setSide_self] at hpx
    exact hd px hpx
  · rw [side_setSide_of_ne t hs] at hpx
    exact h s px hpx

/-- A cancel adds no price. -/
theorem mem_cancel {d : Levels} {px : Int} (h : px ∈ (d.cancel id).2) : px ∈ d := by
  rw [← AList.lookup_isSome, lookup_cancel] at h
  rw [← AList.lookup_isSome]
  cases hl : d.lookup px with
  | none =>
    rw [hl] at h
    contradiction
  | some os => rfl

/-- The prices of the seeded book fit. -/
theorem fits_seeded : ToyBook.seeded.Fits := by
  intro s
  cases s <;> decide +kernel

/-- Every request with numbers that fit leaves prices that fit. -/
theorem ToyBook.Fits.handle (h : t.Fits) (hr : r.Fits) : (t.handle r).1.Fits := by
  cases r with
  | reset =>
    intro s px hpx
    cases s <;> contradiction
  | seed => exact fits_seeded
  | limit side price qty =>
    have hset : (t.setSide side ((t.side side).append price ⟨t.nextId, qty⟩)).Fits := by
      refine h.setSide (fun px hpx => ?_) side
      rcases (AList.mem_insert _).mp hpx with rfl | hpx
      · exact hr.1
      · exact h side px hpx
    intro s px hpx
    rw [show (t.handle (.limit side price qty)).1 = t.limit side price qty from rfl,
      side_limit] at hpx
    exact hset s px hpx
  | market side qty => exact h.setSide (h.market side qty) side.opposite
  | cancel id =>
    intro s px hpx
    cases s with
    | buy => exact h .buy px (mem_cancel hpx)
    | sell => exact h .sell px (mem_cancel hpx)
  | other => exact h

/-- No number of a reply is too large for a `long long`. -/
theorem Mirrors.clamp_reply (h : Mirrors t e) (hf : t.Fits) (ok : Bool) (id : Nat)
    (fills : List Fill) : (reply e ok id fills).clamp = reply e ok id fills := by
  have hord := h.wf.ordered
  have hlevel (s : Side) (n : Int × Level) (hn : n ∈ e.book.queues.ladder s) :
      (LevelView.ofLevel n).clamp = LevelView.ofLevel n := by
    have hprice : Signed n.1 :=
      hf s n.1 (((h.shows s).mem_keys hord).mpr (List.mem_map_of_mem hn))
    have hshown := h.bounded s n.1
    rw [hord.levelAt_of_mem (show (n.1, n.2) ∈ _ from hn)] at hshown
    have hlength : n.2.queue.length ≤ n.2.shown := by
      have hle := List.length_le_sum_of_one_le (n.2.queue.map fun x => x.remaining.toNat)
        (List.forall_mem_map.mpr fun x hx => Word.toNat_pos.mpr (h.plain s n hn x hx).shows)
      rwa [List.length_map] at hle
    have hqty : Signed n.2.shown := by
      unfold Signed
      omega
    have hcount : Signed n.2.queue.length := by
      unfold Signed
      omega
    rw [LevelView.clamp, LevelView.ofLevel, clamp_of_signed hprice, clamp_of_signed hqty,
      clamp_of_signed hcount, Int.toNat_natCast]
  have hlevels (s : Side) : (levels e.book s kDepth).map LevelView.clamp =
      levels e.book s kDepth := by
    rw [levels_eq h.wf h.exact]
    refine (List.map_congr_left fun l hl => ?_).trans (List.map_id _)
    obtain ⟨n, hn, rfl⟩ := List.mem_map.mp (List.mem_of_mem_take hl)
    exact hlevel s n hn
  unfold reply Reply.clamp
  simp only [hlevels]

/-- What a request is answered with shows the book behind it. -/
theorem handle_reply (e : MatchingEngine) (r : Request) : ∃ ok id fills,
    (Demo.handle e r).2 = reply (Demo.handle e r).1 ok id fills := by
  have hseed (cmds : List Command) (v : MatchingEngine × Reply)
      (hv : ∃ ok id fills, v.2 = reply v.1 ok id fills) : ∃ ok id fills,
        (cmds.foldl (fun v c => execute v.1 c) v).2 =
          reply (cmds.foldl (fun v c => execute v.1 c) v).1 ok id fills := by
    induction cmds generalizing v with
    | nil => exact hv
    | cons c cmds ih => exact ih _ (execute_reply v.1 c)
  cases r with
  | reset => exact execute_reply start .snap
  | seed => exact hseed _ _ (execute_reply start .snap)
  | limit side price qty => exact execute_reply e (.limit side price (.ofInt qty))
  | market side qty => exact execute_reply e (.market side (.ofInt qty))
  | cancel id => exact execute_reply e (.cancel id)
  | other => exact execute_reply e .snap

/-- The toy book and a process that runs on a book like it. -/
def Serves (t : ToyBook) (p : Option MatchingEngine) : Prop :=
  ∃ e, p = some e ∧ Mirrors t e ∧ t.Fits

/-- The page is served the same by the toy book and over the text. -/
theorem serves : Run.Simulates Serves (fun t (a : Request × (Nat → Nat)) => Fair t a.1 ∧ a.1.Fits)
    (fun t a => (t.handle a.1).1) (fun t a => some ((t.handle a.1).2.top kDepth))
    (fun p a => (exchange p a.1 a.2).1) (fun p a => (exchange p a.1 a.2).2) := by
  have hstep (t : ToyBook) (e : MatchingEngine) (r : Request) (lat : Nat → Nat)
      (h : Mirrors t e) (hf : t.Fits) (hr : Fair t r ∧ r.Fits) :
      Serves (t.handle r).1 (exchange (some e) r lat).1 ∧
        some ((t.handle r).2.top kDepth) = (exchange (some e) r lat).2 := by
    have hnext := simulates.step t e r h hr.1
    have hout : (t.handle r).2.top kDepth = (Demo.handle e r).2 := simulates.out t e r h hr.1
    have hfits := hf.handle hr.2
    obtain ⟨ok, id, fills, hreply⟩ := handle_reply e r
    rw [exchange_eq e hr.2, hout, hreply, hnext.clamp_reply hfits]
    exact ⟨⟨_, rfl, hnext, hfits⟩, rfl⟩
  constructor
  · rintro t p ⟨r, lat⟩ ⟨e, rfl, h, hf⟩ hr
    exact (hstep t e r lat h hf hr).1
  · rintro t p ⟨r, lat⟩ ⟨e, rfl, h, hf⟩ hr
    exact (hstep t e r lat h hf hr).2

/-- In every run of fair requests with numbers that fit, whatever the clock shows, the page finds
in the JSON that `lob_demo` prints what the toy book would reply, down to the depth of the
snapshots. -/
theorem pages_agree {as : List (Request × (Nat → Nat))}
    (h : Run.Allowed (fun t (a : Request × (Nat → Nat)) => (ToyBook.handle t a.1).1)
      (fun t a => Fair t a.1 ∧ a.1.Fits) {} as) :
    Run.outputs (fun t a => some ((ToyBook.handle t a.1).2.top kDepth))
        (fun t a => (t.handle a.1).1) {} as =
      Run.outputs (fun p a => (exchange p a.1 a.2).2) (fun p a => (exchange p a.1 a.2).1)
        (some start) as := by
  refine serves.outputs ⟨start, rfl, mirrors_start, ?_⟩ h
  intro s px hpx
  cases s <;> contradiction

/-- A session on the page: a market order that takes three levels, and cancellations. -/
def session : List Request :=
  [.limit .buy 3 4, .seed, .limit .buy 10001 3, .market .sell 20, .cancel 13, .cancel 100,
    .market .buy 1000, .reset, .market .sell 0]

/-- A session of requests of every kind. -/
theorem pages_agree_session :
    let as : List (Request × (Nat → Nat)) := session.map fun r => (r, fun i => 100 + i)
    Run.outputs (fun t a => some ((ToyBook.handle t a.1).2.top kDepth))
        (fun t a => (t.handle a.1).1) {} as =
      Run.outputs (fun p a => (exchange p a.1 a.2).2) (fun p a => (exchange p a.1 a.2).1)
        (some start) as :=
  pages_agree (by decide +kernel)

end Lob.Demo
