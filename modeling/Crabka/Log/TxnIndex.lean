import Mathlib

/-!
# The aborted-transaction index

`crates/log/src/txn_index.rs`: the aborted transactions of one segment, in the order in which their
markers were appended. Offsets and producer ids are `i64`.
-/

namespace Crabka.Log

/-- `AbortedTxn`: the first offset of the transaction and the offset of its marker. -/
structure AbortedTxn where
  startOffset : ℤ
  lastOffset : ℤ
  producerId : ℤ
  deriving DecidableEq, Repr

abbrev TxnIndex := List AbortedTxn

/-- `aborted_in_range`: the entries that overlap `[start, stop)`. -/
def TxnIndex.abortedInRange (index : TxnIndex) (start stop : ℤ) : List AbortedTxn :=
  index.filter fun e => e.startOffset < stop ∧ start ≤ e.lastOffset

end Crabka.Log
