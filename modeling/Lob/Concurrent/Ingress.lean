import Lob.Concurrent.Seqlock
import Lob.Model.Book

/-!
# Ingress commands

The commands that the pipeline and the sharded books apply to an order book,
and the inside market they report.
-/

namespace Lob

/-- `enum class IngressType`. -/
inductive IngressType where
  | limit
  | market
  | cancel
  deriving DecidableEq, Repr

/-- `struct IngressCmd`. -/
structure IngressCmd where
  type : IngressType := .limit
  side : Side := .buy
  price : Int := 0
  qty : Qty := 1
  cancelId : Nat := 0
  instrument : Nat := 0
  seq : Nat := 0
  deriving DecidableEq, Repr, Inhabited

namespace OrderBook

/-- The fills a command produces on a book, and the book after it. The callers discard the
fills. -/
def ingest (b : OrderBook) (cmd : IngressCmd) : List Fill × OrderBook :=
  match cmd.type with
  | .limit => ([], (b.addLimitOrder cmd.side cmd.price cmd.qty).2)
  | .market => b.marketOrder cmd.side cmd.qty
  | .cancel => ([], (b.cancelOrder cmd.cancelId).2)

/-- The inside market, as `publish_quote` and `quote` assemble it. -/
def inside (b : OrderBook) : Quote :=
  let q : Quote := {}
  let q := match b.bestBid with
    | some px => { q with hasBid := true, bid := px, bidQty := b.bestQty .buy }
    | none => q
  match b.bestAsk with
  | some px => { q with hasAsk := true, ask := px, askQty := b.bestQty .sell }
  | none => q

/-- The book after commands are applied one after the other. -/
def sequential (b : OrderBook) (cmds : List IngressCmd) : OrderBook :=
  cmds.foldl (fun b cmd => (b.ingest cmd).2) b

end OrderBook

end Lob
