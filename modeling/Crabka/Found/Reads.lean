import Mathlib

/-!
# Reading a log through a buffer

A log is read from a position on by filling a buffer from the last index entry at or before the position; the complete
entries in it that are not before the position are returned, and the next read begins after them. A read that returns
nothing ends the loop, so an entry that does not fit hides all that follows it. If every entry fits together with what
lies between it and the index entry before it, the loop returns the whole log (`Reader.readFrom_eq`).
-/

namespace Crabka.Found
open List
variable {β : Type}

/-- The entries at the beginning of a list that are complete in a buffer. -/
def fits (size : β → ℕ) : ℕ → List β → List β
  | _, [] => []
  | room, x :: xs => if size x ≤ room then x :: fits size (room - size x) xs else []

/-- How a log is read: the sizes of the entries, where in the log the read of a position begins and ends at the latest,
as its index and its segments say, and the size of the buffer. -/
structure Reader (β : Type) where
  size : β → ℕ
  floor : List β → ℕ → ℕ
  stop : List β → ℕ → ℕ
  max : ℕ
  floor_le : ∀ log n, floor log n ≤ n
  lt_stop : ∀ log n, n < stop log n

/-- One segment whose index has an entry for every batch. -/
def Reader.dense (size : β → ℕ) (max : ℕ) : Reader β where
  size := size
  floor _ n := n
  stop _ n := n + 1
  max := max
  floor_le _ _ := le_rfl
  lt_stop _ _ := Nat.lt_succ_self _

namespace Reader
variable (r : Reader β) (log : List β)

/-- One read. -/
def read (n : ℕ) : List β :=
  (fits r.size r.max ((log.take (r.stop log n)).drop (r.floor log n))).drop (n - r.floor log n)

/-- The loop of reads; each one before the last returns an entry. -/
def loop : ℕ → ℕ → List β
  | 0, _ => []
  | fuel + 1, n => match r.read log n with
    | [] => []
    | part => part ++ loop fuel (n + part.length)

def readFrom (n : ℕ) : List β := r.loop log log.length n

/-- Every entry from a position on fits in the buffer of the read that begins with it. -/
def Reaches (start : ℕ) : Prop :=
  ∀ n < log.length, start ≤ n → (((log.take (n + 1)).drop (r.floor log n)).map r.size).sum ≤ r.max

instance (start : ℕ) : Decidable (r.Reaches log start) := inferInstanceAs (Decidable (∀ n < log.length, _ → _))

variable {r log} {start : ℕ}

lemma Reaches.mono (h : r.Reaches log start) {n : ℕ} (hn : start ≤ n) : r.Reaches log n :=
  fun m hm hle => h m hm (hn.trans hle)

lemma fits_isPrefix (size : β → ℕ) (room : ℕ) (l : List β) : fits size room l <+: l := by
  induction l generalizing room with
  | nil => exact nil_prefix
  | cons x l ih =>
    unfold fits
    split
    · exact (prefix_cons_inj x).mpr (ih _)
    · exact nil_prefix

lemma le_length_fits {size : β → ℕ} {room k : ℕ} {l : List β} (hk : k ≤ l.length)
    (hsum : ((l.take k).map size).sum ≤ room) : k ≤ (fits size room l).length := by
  induction l generalizing room k with
  | nil => exact hk
  | cons x l ih =>
    cases k with
    | zero => exact Nat.zero_le _
    | succ k =>
      rw [take_succ_cons, map_cons, sum_cons] at hsum
      rw [fits, if_pos (by omega), length_cons]
      exact Nat.succ_le_succ (ih (by simpa using hk) (by omega))

lemma read_isPrefix (n : ℕ) : r.read log n <+: log.drop n := by
  have hdrop : n = r.floor log n + (n - r.floor log n) := (Nat.add_sub_of_le (r.floor_le log n)).symm
  have hfits := (fits_isPrefix r.size r.max ((log.take (r.stop log n)).drop (r.floor log n))).drop (n - r.floor log n)
  rw [drop_drop, ← hdrop] at hfits
  exact hfits.trans (( take_prefix _ _).drop n)

lemma Reaches.read_ne_nil {n : ℕ} (h : r.Reaches log n) (hn : n < log.length) : r.read log n ≠ [] := by
  have hle := r.floor_le log n
  have hstop := r.lt_stop log n
  have hlen := @le_length_fits _ r.size r.max (n + 1 - r.floor log n)
    ((log.take (r.stop log n)).drop (r.floor log n)) (by simp; omega) (by
      rw [take_drop, Nat.add_sub_of_le (by omega), take_take, min_eq_left (by omega)]
      exact h n hn le_rfl)
  refine ne_nil_of_length_pos ?_
  rw [read, length_drop]
  omega

lemma Reaches.loop_eq {fuel n : ℕ} (h : r.Reaches log n) (hfuel : log.length ≤ fuel + n) :
    r.loop log fuel n = log.drop n := by
  induction fuel generalizing n with
  | zero => exact (drop_eq_nil_of_le (by omega)).symm
  | succ fuel ih =>
    obtain ⟨rest, hrest⟩ := @read_isPrefix _ r log n
    unfold loop
    split
    · rename_i hnil
      by_contra hne
      exact h.read_ne_nil (not_le.mp fun hle => hne (drop_eq_nil_of_le hle).symm) hnil
    · rename_i hne
      have hpos := length_pos_iff.mpr hne
      rw [ih (h.mono (by omega)) (by omega), ← drop_drop, ← hrest, drop_left]

/-- **The loop reads the whole log** if every entry fits. -/
lemma readFrom_eq (h : r.Reaches log start) : r.readFrom log start = log.drop start := h.loop_eq (by omega)

end Reader
end Crabka.Found
