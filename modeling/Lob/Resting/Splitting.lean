import Lob.Core.Loop
import Lob.Resting.Execution

/-!
# Splitting a market order

A market order may be sent in two parts. The parts leave the book that the whole
leaves, and their fills are its fills, except that a slice the first part cuts
is filled by the second part as well. The runs of the whole and of the first
part stay in step until the first part has nothing left to fill.
-/

namespace Lob

/-- The step fills less of its order than the order shows. -/
def FillStep.Cuts (t : FillStep) : Prop :=
  ∃ o, t.before.findId t.id = some o ∧ t.filled < (t.before.mem o).remainingQty

/-- The last of the steps leaves a slice partly filled. -/
def EndsCut (ts : List FillStep) : Prop := ∃ t, ts.getLast? = some t ∧ t.Cuts

theorem endsCut_cons {t : FillStep} (ht : ¬ t.Cuts) (ts : List FillStep) :
    EndsCut (t :: ts) ↔ EndsCut ts := by
  cases ts with
  | nil => simp [EndsCut, ht]
  | cons u us => simp [EndsCut, List.getLast?_cons_cons]

/-- Two deductions from an aggregate are one of their sum. -/
theorem decreased_decreased {x y : Qty} (h : x.toNat + y.toNat < 2 ^ 64) (agg : Qty) :
    decreased (decreased agg x) y = decreased agg (x + y) := by
  have hdec (a z : Qty) : (decreased a z).toNat = a.toNat - z.toNat := by
    rw [decreased]
    split
    · next hlt =>
      rw [UInt64.lt_iff_toNat_lt] at hlt
      rw [UInt64.toNat_zero]
      omega
    · next hge => exact Word.toNat_sub (Std.not_lt.mp hge)
  rw [← UInt64.toNat_inj, hdec, hdec, hdec, Word.toNat_add h]
  omega

namespace OrderBook

/-- What sending `x` and then `y` is to be compared with sending their sum. -/
structure Splits (b : OrderBook) (side : Side) (x y : Qty) : Prop where
  book : ((b.marketOrder side x).2.marketOrder side y).2 = (b.marketOrder side (x + y)).2
  apart : ¬ EndsCut (b.marketTrace side x) → (b.marketOrder side (x + y)).1 =
    (b.marketOrder side x).1 ++ ((b.marketOrder side x).2.marketOrder side y).1
  /-- The first part has cut a slice: its last fill and the next one are one of the whole. -/
  merged : EndsCut (b.marketTrace side x) → ∃ fs gs id px u v, u.toNat + v.toNat < 2 ^ 64 ∧
    (b.marketOrder side x).1 = fs ++ [⟨id, px, u⟩] ∧
    ((b.marketOrder side x).2.marketOrder side y).1 = ⟨id, px, v⟩ :: gs ∧
    (b.marketOrder side (x + y)).1 = fs ++ ⟨id, px, u + v⟩ :: gs

variable {b : OrderBook} {s : Side} {i : Nat} {px : Int} {l l' : PriceLevel} {o cur : Ptr}
  {m m' : Memory} {w : Sweep} {rest : PriceLadder} {y : Qty}

/-- Writing a level twice. -/
theorem putLevel_putLevel (hc : l.cnt ≠ 0) (m : Memory) (l' : PriceLevel) :
    { ({ b with mem := m' }.putLevel s i px l) with mem := m }.putLevel s i px l' =
      { b with mem := m }.putLevel s i px l' := by
  have hput (v : PriceLadder) : putLadder (putLadder v i px l) i px l' = putLadder v i px l' := by
    simp only [putLadder, if_neg hc]
    split
    · exact List.eraseIdx_set_eq
    · exact List.set_set _
  cases s with
  | buy => simp only [putLevel, setLadder, ladder, hput]
  | sell => simp only [putLevel, setLadder, ladder, hput]

/-- Settling after a level has been written is settling in the book before. -/
theorem settle_putLevel (hc : l.cnt ≠ 0) (hid : (m' o).orderId = (b.mem o).orderId) :
    ({ b with mem := m' }.putLevel s i px l).settle s i px m l' o = b.settle s i px m l' o := by
  have hmem : ({ b with mem := m' }.putLevel s i px l).mem = m' := mem_putLevel
  simp only [settle, putLevel_putLevel hc, hmem, hid]

/-- An iteration with less to fill than the head shows leaves the head where it is. -/
theorem sweepStep_cut (hv : w.book.ladder s = (px, l) :: rest)
    (hhead : l.head = some cur) (hprice : (w.book.mem cur).price = px)
    (hcut : w.toFill < (w.book.mem cur).remainingQty) :
    sweepStep s w =
      ⟨{ w.book with mem := (w.book.mem.modify cur fun x => x.take w.toFill) }.putLevel s 0 px
        (l.decreaseAggregate w.toFill), 0,
        w.fills ++ [⟨(w.book.mem cur).orderId, px, w.toFill⟩]⟩ := by
  have hlt := UInt64.lt_iff_toNat_lt.mp hcut
  have hleft : ((w.book.mem.modify cur fun x => x.take w.toFill) cur).remainingQty ≠ 0 := by
    rw [Memory.modify_self, Order.take, ← Word.toNat_pos, Word.toNat_sub (UInt64.le_of_lt hcut)]
    omega
  have hzero : w.toFill - w.toFill = 0 := Word.sub_eq_zero.mpr rfl
  rw [sweepStep_cons hv hhead hprice, Word.min_eq_left (UInt64.le_of_lt hcut), settle,
    if_neg hleft, hzero]

/-- Going on with `y` after such an iteration is what the iteration does with `y` more. -/
theorem sweepStep_resume (h : w.book.WellFormed) (hv : w.book.ladder s = (px, l) :: rest)
    (hhead : l.head = some cur) (hprice : (w.book.mem cur).price = px)
    (hcut : w.toFill < (w.book.mem cur).remainingQty) (hy : y ≠ 0)
    (hsum : w.toFill.toNat + y.toNat < 2 ^ 64) :
    (⟨(sweepStep s w).book, y, []⟩ : Sweep).active s = true ∧
      ∃ b' q v, w.toFill.toNat + v.toNat < 2 ^ 64 ∧
        sweepStep s ⟨(sweepStep s w).book, y, []⟩ =
          ⟨b', q, [⟨(w.book.mem cur).orderId, px, v⟩]⟩ ∧
        sweepStep s ⟨w.book, w.toFill + y, w.fills⟩ =
          ⟨b', q, w.fills ++ [⟨(w.book.mem cur).orderId, px, w.toFill + v⟩]⟩ := by
  have hcnt : l.cnt ≠ 0 := h.cnt_ne_zero (s := s) (i := 0) (by rw [hv]; rfl)
  have hstep := sweepStep_cut hv hhead hprice hcut
  generalize hm₁ : (w.book.mem.modify cur fun x => x.take w.toFill) = m₁ at hstep
  generalize hr : (w.book.mem cur).remainingQty = r at hcut
  have hlt := UInt64.lt_iff_toNat_lt.mp hcut
  have hcnt₁ : (l.decreaseAggregate w.toFill).cnt ≠ 0 := hcnt
  have hv₁ : (sweepStep s w).book.ladder s = (px, l.decreaseAggregate w.toFill) :: rest := by
    rw [hstep, ladder_putLevel_self, putLadder, if_neg hcnt₁, hv, List.set_cons_zero]
  have hmem₁ : (sweepStep s w).book.mem = m₁ := by rw [hstep, mem_putLevel]
  have hcur : m₁ cur = (w.book.mem cur).take w.toFill := by rw [← hm₁, Memory.modify_self]
  have hid : (m₁ cur).orderId = (w.book.mem cur).orderId := by rw [hcur]; rfl
  have hprice₁ : (m₁ cur).price = px := by rw [hcur]; exact hprice
  have hrem : (m₁ cur).remainingQty = r - w.toFill := by rw [hcur, ← hr]; rfl
  have hleft : (r - w.toFill).toNat = r.toNat - w.toFill.toNat :=
    Word.toNat_sub (UInt64.le_of_lt hcut)
  have hmin := Word.toNat_min y (r - w.toFill)
  have hfit : w.toFill.toNat + (min y (r - w.toFill)).toNat < 2 ^ 64 := by omega
  have hwhole : min (w.toFill + y) r = w.toFill + min y (r - w.toFill) := by
    rw [← UInt64.toNat_inj, Word.toNat_min, Word.toNat_add hsum, Word.toNat_add hfit]
    omega
  refine ⟨?_, w.book.settle s 0 px (w.book.mem.modify cur fun x =>
      x.take (w.toFill + min y (r - w.toFill)))
    (l.decreaseAggregate (w.toFill + min y (r - w.toFill))) cur, y - min y (r - w.toFill),
    min y (r - w.toFill), hfit, ?_, ?_⟩
  · rw [Sweep.active, hv₁, Bool.and_eq_true, decide_eq_true_eq]
    exact ⟨UInt64.lt_iff_toNat_lt.mpr (Word.toNat_pos.mpr hy), rfl⟩
  · have hnext := sweepStep_cons (w := ⟨(sweepStep s w).book, y, []⟩) hv₁ hhead
      (by rw [hmem₁]; exact hprice₁)
    simp only [hmem₁, hrem, hid, List.nil_append] at hnext
    have htake : m₁.modify cur (fun x => x.take (min y (r - w.toFill))) =
        w.book.mem.modify cur fun x => x.take (w.toFill + min y (r - w.toFill)) := by
      rw [← hm₁, Memory.modify_modify]
      refine Memory.modify_congr ?_
      simp only [Order.take]
      grind
    have hagg : (l.decreaseAggregate w.toFill).decreaseAggregate (min y (r - w.toFill)) =
        l.decreaseAggregate (w.toFill + min y (r - w.toFill)) := by
      simp only [PriceLevel.decreaseAggregate, decreased_decreased hfit]
    rw [hnext, htake, hagg, hstep]
    exact congrArg (fun b' => Sweep.mk b' _ _) (settle_putLevel hcnt₁ hid)
  · have hall := sweepStep_cons (w := ⟨w.book, w.toFill + y, w.fills⟩) hv hhead hprice
    have hsub : w.toFill + y - (w.toFill + min y (r - w.toFill)) = y - min y (r - w.toFill) := by
      grind
    simp only [hr, hwhole, hsub] at hall
    exact hall

/-- The loop variables of the whole beside those of the first part. -/
def Sweep.more (w : Sweep) (y : Qty) : Sweep := { w with toFill := w.toFill + y }

/-- The loop variables with fills from before the loop. -/
def Sweep.after (fs : List Fill) (w : Sweep) : Sweep := { w with fills := fs ++ w.fills }

theorem sweepStep_after (fs : List Fill) (w : Sweep) :
    sweepStep s (w.after fs) = (sweepStep s w).after fs := by
  cases hv : w.book.ladder s with
  | nil => simp only [sweepStep, Sweep.after, hv]
  | cons n rest =>
    obtain ⟨px, l⟩ := n
    cases hhead : l.head with
    | none => simp only [sweepStep, Sweep.after, hv, hhead]
    | some cur =>
      simp only [sweepStep, Sweep.after, hv, hhead, List.append_assoc]
      rfl

/-- Fills from before the loop stay in front of its own. -/
theorem sweep_after (fs : List Fill) (n : Nat) (w : Sweep) :
    sweep s n (w.after fs) = (sweep s n w).after fs := by
  rw [sweep_eq_run, sweep_eq_run]
  exact Loop.run_map (f := Sweep.after fs) (fun _ => rfl) (sweepStep_after fs) n w

/-- An iteration that exhausts what the head shows does not depend on what is left over. -/
theorem sweepStep_more (hv : w.book.ladder s = (px, l) :: rest) (hhead : l.head = some cur)
    (hprice : (w.book.mem cur).price = px) (hle : (w.book.mem cur).remainingQty ≤ w.toFill)
    (hsum : w.toFill.toNat + y.toNat < 2 ^ 64) :
    sweepStep s (w.more y) = (sweepStep s w).more y ∧
      (sweepStep s w).toFill.toNat + y.toNat < 2 ^ 64 := by
  have hall := sweepStep_cons (w := w.more y) hv hhead hprice
  have hstep := sweepStep_cons hv hhead hprice
  simp only [Sweep.more] at hall
  generalize (w.book.mem cur).remainingQty = r at hle hall hstep
  have hnat := UInt64.le_iff_toNat_le.mp hle
  have hmin : min w.toFill r = r := by
    rw [← UInt64.toNat_inj, Word.toNat_min]
    omega
  have hmore : min (w.toFill + y) r = r := by
    rw [← UInt64.toNat_inj, Word.toNat_min, Word.toNat_add hsum]
    omega
  have hsub : w.toFill + y - r = w.toFill - r + y := by grind
  rw [hmin] at hstep
  rw [hmore, hsub] at hall
  rw [hstep]
  refine ⟨hall, ?_⟩
  simp only [Word.toNat_sub hle]
  omega

theorem sweepTrace_of_idle (ha : w.active s = false) (n : Nat) : sweepTrace s n w = [] := by
  cases n with
  | zero => rfl
  | succ n => simp [sweepTrace, ha]

theorem sweep_of_idle (ha : w.active s = false) (n : Nat) : sweep s n w = w := by
  rw [sweep_eq_run]
  exact Loop.run_of_idle ha n

/-- The running loop fills the head, and cuts its slice when that shows more than is left. -/
theorem headFill_cuts (h : w.book.WellFormed) (ha : w.active s = true) :
    ∃ t px l rest cur, headFill s w = [t] ∧ w.book.ladder s = (px, l) :: rest ∧
      l.head = some cur ∧ (w.book.mem cur).price = px ∧
      (t.Cuts ↔ w.toFill < (w.book.mem cur).remainingQty) := by
  cases hv : w.book.ladder s with
  | nil => simp [Sweep.active, hv] at ha
  | cons n rest =>
    obtain ⟨px, l⟩ := n
    obtain ⟨cur, hcur⟩ := h.atHead hv
    refine ⟨⟨w.book, (w.book.mem cur).orderId, px, w.toFill, (sweepStep s w).book⟩, px, l, rest,
      cur, by simp only [headFill, hv, hcur.head], rfl, hcur.head, hcur.price, ?_⟩
    simp only [FillStep.Cuts, FillStep.filled, hcur.mapped, Option.some.injEq, exists_eq_left',
      UInt64.lt_iff_toNat_lt, Word.toNat_min]
    omega

/-- The run of the whole, when the first part has come to an end. -/
theorem sweep_more (n : Nat) (h : w.book.WellFormed) (hy : y ≠ 0)
    (hsum : w.toFill.toNat + y.toNat < 2 ^ 64) :
    (¬ EndsCut (sweepTrace s n w) → ∃ m, sweep s m (w.more y) = (sweep s n w).more y) ∧
    (EndsCut (sweepTrace s n w) → ∃ m fs id px u v b' q, u.toNat + v.toNat < 2 ^ 64 ∧
      (sweep s n w).fills = fs ++ [⟨id, px, u⟩] ∧
      (⟨(sweep s n w).book, y, []⟩ : Sweep).active s = true ∧
      sweepStep s ⟨(sweep s n w).book, y, []⟩ = ⟨b', q, [⟨id, px, v⟩]⟩ ∧
      sweep s m (w.more y) = ⟨b', q, fs ++ [⟨id, px, u + v⟩]⟩) := by
  induction n generalizing w with
  | zero =>
    refine ⟨fun _ => ⟨0, rfl⟩, ?_⟩
    rintro ⟨t, ht, _⟩
    simp [sweepTrace] at ht
  | succ n ih =>
    cases ha : w.active s with
    | false =>
      rw [sweepTrace_of_idle ha, sweep_of_idle ha]
      refine ⟨fun _ => ⟨0, rfl⟩, ?_⟩
      rintro ⟨t, ht, _⟩
      simp at ht
    | true =>
      obtain ⟨t, px, l, rest, cur, hfill, hv, hhead, hprice, hcuts⟩ := headFill_cuts h ha
      have hmore : (w.more y).active s = true := by
        rw [Sweep.active, Bool.and_eq_true, decide_eq_true_eq] at ha ⊢
        refine ⟨?_, ha.2⟩
        have hy' := Word.toNat_pos.mpr hy
        rw [UInt64.lt_iff_toNat_lt, Sweep.more, Word.toNat_add hsum, UInt64.toNat_zero]
        omega
      have hrun : sweep s (n + 1) w = sweep s n (sweepStep s w) := by rw [sweep, if_pos ha]
      have hrun' (m : Nat) : sweep s (m + 1) (w.more y) = sweep s m (sweepStep s (w.more y)) := by
        rw [sweep, if_pos hmore]
      have htrace : sweepTrace s (n + 1) w = t :: sweepTrace s n (sweepStep s w) := by
        rw [sweepTrace, if_pos ha, hfill, List.singleton_append]
      by_cases hc : t.Cuts
      · -- the first part ends inside this slice
        have hcut := hcuts.mp hc
        have hstep := sweepStep_cut hv hhead hprice hcut
        obtain ⟨hactive, b', q, v, hfit, hnext, hall⟩ :=
          sweepStep_resume h hv hhead hprice hcut hy hsum
        have hidle : (sweepStep s w).active s = false := by
          rw [hstep]
          rfl
        rw [htrace, hrun, sweepTrace_of_idle hidle, sweep_of_idle hidle]
        refine ⟨fun hno => absurd ⟨t, rfl, hc⟩ hno, fun _ => ⟨1, w.fills, _, px, w.toFill, v, b', q,
          hfit, by rw [hstep], hactive, hnext, ?_⟩⟩
        rw [hrun' 0]
        exact hall
      · have hle : (w.book.mem cur).remainingQty ≤ w.toFill :=
          Std.not_lt.mp fun hlt => hc (hcuts.mpr hlt)
        obtain ⟨hstep, hsum'⟩ := sweepStep_more hv hhead hprice hle hsum
        obtain ⟨happart, hmerged⟩ := ih (h.sweepStep (s := s)).1.wf hsum'
        rw [htrace, hrun, endsCut_cons hc]
        rw [← hstep] at happart hmerged
        constructor
        · intro hno
          obtain ⟨m, hm⟩ := happart hno
          exact ⟨m + 1, (hrun' m).trans hm⟩
        · intro hyes
          obtain ⟨m, fs, id, k, u, v, b', q, hfit, hfills, hactive, hnext, hm⟩ := hmerged hyes
          exact ⟨m + 1, fs, id, k, u, v, b', q, hfit, hfills, hactive, hnext, (hrun' m).trans hm⟩

/-- When the first part has ended, the whole goes on as the second part does. -/
theorem sweep_more_of_idle (ha : w.active s = false) (n : Nat) :
    (sweep s n (w.more y)).book = (sweep s n ⟨w.book, y, []⟩).book ∧
      (sweep s n (w.more y)).fills = w.fills ++ (sweep s n ⟨w.book, y, []⟩).fills ∧
      (sweep s n (w.more y)).active s = (sweep s n ⟨w.book, y, []⟩).active s := by
  by_cases hv : w.book.ladder s = []
  · -- nothing is left to trade with
    have hidle (q : Qty) (fs : List Fill) : (⟨w.book, q, fs⟩ : Sweep).active s = false := by
      rw [Sweep.active, hv, List.isEmpty_nil, Bool.not_true, Bool.and_false]
    rw [Sweep.more, sweep_of_idle (hidle _ _), sweep_of_idle (hidle _ _), hidle, hidle]
    exact ⟨rfl, (List.append_nil _).symm, rfl⟩
  · have hzero : w.toFill = 0 := by
      rw [Sweep.active, Bool.and_eq_false_iff, decide_eq_false_iff_not] at ha
      rcases ha with ha | ha
      · rw [UInt64.lt_iff_toNat_lt, UInt64.toNat_zero] at ha
        exact Word.toNat_eq_zero.mp (by omega)
      · simp [hv] at ha
    have hmore : w.more y = (⟨w.book, y, []⟩ : Sweep).after w.fills := by
      rw [Sweep.more, Sweep.after, hzero, List.append_nil, UInt64.zero_add]
    rw [hmore, sweep_after]
    exact ⟨rfl, rfl, rfl⟩

/-- The loop of `market_order`, run from where another run of it has got to. -/
theorem marketOrder_of_sweep (h : b.WellFormed) {side : Side} {x : Qty} {m n : Nat} {v : Sweep}
    (hm : sweep side.opposite m ⟨b, x, []⟩ = v)
    (hdone : (sweep side.opposite n v).active side.opposite = false) :
    b.marketOrder side x = ((sweep side.opposite n v).fills, (sweep side.opposite n v).book) := by
  have hend := h.marketOrder_done side x
  rw [← hm] at hdone ⊢
  simp only [sweep_eq_run, Loop.run_run] at hdone hend ⊢
  simp only [marketOrder, sweep_eq_run, Loop.run_unique hend hdone]

/-- In every reachable book, a market order can be split. -/
theorem reachable_splits {capacity : Nat} {mode : AllocMode} (hb : Reachable capacity mode b)
    (side : Side) {x y : Qty} (hsum : x.toNat + y.toNat < 2 ^ 64) (hy : y ≠ 0) :
    b.Splits side x y := by
  obtain ⟨hw, _⟩ := hb.wellFormed
  have hw₁ := (hw.marketOrder side x).2.wf
  have hdone := hw.marketOrder_done side x
  have hdone₁ := hw₁.marketOrder_done side y
  obtain ⟨happart, hmerged⟩ := sweep_more (w := ⟨b, x, []⟩)
    (b.sweepBound side.opposite x) hw hy hsum
  have hbook : (sweep side.opposite (b.sweepBound side.opposite x) ⟨b, x, []⟩).book =
      (b.marketOrder side x).2 := rfl
  have hfills : (sweep side.opposite (b.sweepBound side.opposite x) ⟨b, x, []⟩).fills =
      (b.marketOrder side x).1 := rfl
  have htrace : sweepTrace side.opposite (b.sweepBound side.opposite x) ⟨b, x, []⟩ =
      b.marketTrace side x := rfl
  rw [htrace] at happart hmerged
  rw [hbook, hfills] at hmerged
  generalize hn : (b.marketOrder side x).2.sweepBound side.opposite y = n at hdone₁
  have hsecond : (b.marketOrder side x).2.marketOrder side y =
      ((sweep side.opposite n ⟨(b.marketOrder side x).2, y, []⟩).fills,
        (sweep side.opposite n ⟨(b.marketOrder side x).2, y, []⟩).book) :=
    marketOrder_of_sweep hw₁ (m := 0) rfl hdone₁
  by_cases hcut : EndsCut (b.marketTrace side x)
  · obtain ⟨m, fs, id, px, u, v, b', q, hfit, hfirst, hactive, hnext, hm⟩ := hmerged hcut
    -- both runs go on from the same book
    have hone : sweep side.opposite 1 ⟨(b.marketOrder side x).2, y, []⟩ =
        Sweep.after [⟨id, px, v⟩] ⟨b', q, []⟩ := by
      rw [sweep, if_pos hactive, hnext]
      rfl
    have hskip : sweep side.opposite n ⟨(b.marketOrder side x).2, y, []⟩ =
        (sweep side.opposite n ⟨b', q, []⟩).after [⟨id, px, v⟩] := by
      calc sweep side.opposite n ⟨(b.marketOrder side x).2, y, []⟩
        _ = sweep side.opposite 1 (sweep side.opposite n ⟨(b.marketOrder side x).2, y, []⟩) :=
          (sweep_of_idle hdone₁ 1).symm
        _ = sweep side.opposite n (sweep side.opposite 1 ⟨(b.marketOrder side x).2, y, []⟩) := by
          simp only [sweep_eq_run, Loop.run_run, Nat.add_comm]
        _ = (sweep side.opposite n ⟨b', q, []⟩).after [⟨id, px, v⟩] := by
          rw [hone, sweep_after]
    have hon : sweep side.opposite n ⟨b', q, fs ++ [⟨id, px, u + v⟩]⟩ =
        (sweep side.opposite n ⟨b', q, []⟩).after (fs ++ [⟨id, px, u + v⟩]) := by
      rw [← sweep_after]
      simp only [Sweep.after, List.append_nil]
    rw [hskip] at hdone₁ hsecond
    have hwhole := marketOrder_of_sweep hw hm (n := n) (by rw [hon]; exact hdone₁)
    rw [hon] at hwhole
    refine ⟨?_, fun hno => absurd hcut hno, fun _ =>
      ⟨fs, (sweep side.opposite n ⟨b', q, []⟩).fills, id, px, u, v, hfit, hfirst, ?_, ?_⟩⟩
    · rw [hsecond, hwhole]
      rfl
    · rw [hsecond]
      rfl
    · rw [hwhole]
      simp [Sweep.after]
  · obtain ⟨m, hm⟩ := happart hcut
    obtain ⟨hbook', hfills', hactive⟩ := sweep_more_of_idle (y := y) hdone n
    rw [hbook] at hbook' hfills' hactive
    have hwhole := marketOrder_of_sweep hw hm (hactive.trans hdone₁)
    refine ⟨?_, fun _ => ?_, fun hyes => absurd hyes hcut⟩
    · rw [hsecond, hwhole]
      exact hbook'.symm
    · rw [hsecond, hwhole]
      exact hfills'

/-- Parts that cut the second slice of an iceberg. -/
theorem reachable_splits_slice :
    (([.add .sell 100 6, .configure 1 2, .add .sell 101 4] : List Op).foldl apply
      (new 4 .pool)).Splits .buy 3 5 :=
  have hb : Reachable 4 .pool (([.add .sell 100 6, .configure 1 2, .add .sell 101 4] :
      List Op).foldl apply (new 4 .pool)) := Run.Reach.foldl Run.Reach.init (by simp [Run.Allowed])
  reachable_splits hb .buy (by decide) (by decide)

end OrderBook

end Lob
