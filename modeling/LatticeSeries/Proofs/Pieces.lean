import LatticeSeries.Block
import Mathlib.Data.List.Basic
import Mathlib.Tactic.SplitIfs

/-!
# Pieces of equal length

A body is cut into records, a block into rows and a cell into elements, each
time into pieces of one length. Cutting and joining are inverse to each other,
and a position in the joined pieces is a position in one of them.
-/
namespace LatticeSeries

variable {α : Type}

theorem length_flatMap_of_length {encode : α → Bytes} {width : Nat} {xs : List α}
    (h : ∀ x ∈ xs, (encode x).length = width) :
    (xs.flatMap encode).length = xs.length * width := by
  induction xs with
  | nil => simp
  | cons x xs ih =>
    have hx := h x (by simp)
    have hxs := ih fun y hy => h y (by simp [hy])
    rw [List.flatMap_cons, List.length_append, hx, hxs, List.length_cons, Nat.succ_mul,
      Nat.add_comm]

theorem take_flatMap_of_length {encode : α → Bytes} {width : Nat} {xs : List α}
    (h : ∀ x ∈ xs, (encode x).length = width) (count : Nat) :
    (xs.flatMap encode).take (count * width) = (xs.take count).flatMap encode := by
  induction xs generalizing count with
  | nil => simp
  | cons x xs ih =>
    obtain ⟨hx, hxs⟩ := List.forall_mem_cons.mp h
    cases count with
    | zero => simp
    | succ count =>
      rw [List.flatMap_cons, Nat.succ_mul, Nat.add_comm, ← hx, List.take_length_add_append, hx,
        ih hxs, List.take_succ_cons, List.flatMap_cons]

theorem getElem?_flatMap_of_length {β : Type} {encode : α → List β} {width : Nat}
    (hwidth : 0 < width) {xs : List α} (h : ∀ x ∈ xs, (encode x).length = width) (offset : Nat) :
    (xs.flatMap encode)[offset]? =
      xs[offset / width]?.bind fun x => (encode x)[offset % width]? := by
  induction xs generalizing offset with
  | nil => simp
  | cons x xs ih =>
    have hx := h x (by simp)
    have hxs : ∀ y ∈ xs, (encode y).length = width := fun y hy => h y (by simp [hy])
    rw [List.flatMap_cons]
    by_cases hlt : offset < width
    · have hsmall : offset < (encode x).length := by omega
      rw [List.getElem?_append_left hsmall, Nat.div_eq_of_lt hlt, Nat.mod_eq_of_lt hlt]
      rfl
    · have hge : (encode x).length ≤ offset := by omega
      have hdiv : offset / width = (offset - width) / width + 1 :=
        Nat.div_eq_sub_div hwidth (by omega)
      have hmod : offset % width = (offset - width) % width :=
        Nat.mod_eq_sub_mod (by omega)
      rw [List.getElem?_append_right hge, hx, ih hxs, hdiv, hmod, List.getElem?_cons_succ]

/-- Element `k` of piece `i` stands behind the elements of the pieces before it. -/
theorem getElem?_flatMap_mul_add {β : Type} {encode : α → List β} {width : Nat} {xs : List α}
    (h : ∀ x ∈ xs, (encode x).length = width) {i k : Nat} {x : α} (hx : xs[i]? = some x)
    (hk : k < width) : (xs.flatMap encode)[i * width + k]? = (encode x)[k]? := by
  have hpos : 0 < width := Nat.zero_lt_of_lt hk
  have hdiv : (i * width + k) / width = i := by
    rw [Nat.mul_comm, Nat.mul_add_div hpos, Nat.div_eq_of_lt hk, Nat.add_zero]
  have hmod : (i * width + k) % width = k := Nat.mul_add_mod_of_lt hk
  rw [getElem?_flatMap_of_length hpos h, hdiv, hmod, hx, Option.bind_some]

theorem pieces_flatMap {encode : α → Bytes} {width : Nat} {xs : List α}
    (h : ∀ x ∈ xs, (encode x).length = width) :
    pieces width xs.length (xs.flatMap encode) = xs.map encode := by
  induction xs with
  | nil => rfl
  | cons x xs ih =>
    have hx := h x (by simp)
    have hxs := ih fun y hy => h y (by simp [hy])
    rw [List.flatMap_cons, List.length_cons, pieces, List.take_left' hx, List.drop_left' hx, hxs,
      List.map_cons]

theorem flatten_pieces {width count : Nat} {bytes : Bytes} :
    (pieces width count bytes).flatten = bytes.take (count * width) := by
  induction count generalizing bytes with
  | zero => simp [pieces]
  | succ count ih =>
    rw [pieces, List.flatten_cons, ih, Nat.succ_mul, Nat.add_comm, List.take_add]

theorem getElem?_pieces {width count : Nat} {bytes : Bytes} {i : Nat} (hi : i < count) :
    (pieces width count bytes)[i]? = some ((bytes.drop (i * width)).take width) := by
  induction count generalizing bytes i with
  | zero => omega
  | succ count ih =>
    cases i with
    | zero => simp [pieces]
    | succ i =>
      rw [pieces, List.getElem?_cons_succ, ih (Nat.lt_of_succ_lt_succ hi), List.drop_drop,
        Nat.succ_mul, Nat.add_comm width]

theorem map_range_eq_pieces (width count : Nat) (bytes : Bytes) :
    ((List.range count).map fun i => (bytes.drop (i * width)).take width) =
      pieces width count bytes := by
  apply List.ext_getElem?
  intro i
  rw [List.getElem?_map]
  by_cases hi : i < count
  · rw [List.getElem?_range hi, getElem?_pieces hi]
    rfl
  · have hrange : (List.range count)[i]? = none := List.getElem?_eq_none (by simpa using hi)
    have hpieces : (pieces width count bytes)[i]? = none :=
      List.getElem?_eq_none (by simpa using hi)
    rw [hrange, hpieces]
    rfl

/-- Joined lists of one length can be cut apart again. -/
theorem take_drop_flatten {width : Nat} {xs : List (List α)} (h : ∀ x ∈ xs, x.length = width)
    {i : Nat} {x : List α} (hi : xs[i]? = some x) :
    (xs.flatten.drop (i * width)).take width = x := by
  induction xs generalizing i with
  | nil => simp at hi
  | cons y ys ih =>
    obtain ⟨hy, hys⟩ := List.forall_mem_cons.mp h
    cases i with
    | zero =>
      obtain rfl : y = x := by simpa using hi
      rw [Nat.zero_mul, List.drop_zero, List.flatten_cons, List.take_left' hy]
    | succ i =>
      have hnext : ys[i]? = some x := by simpa using hi
      rw [Nat.succ_mul, Nat.add_comm, ← List.drop_drop, List.flatten_cons, List.drop_left' hy,
        ih hys hnext]

theorem length_of_mem_pieces {width count : Nat} {bytes piece : Bytes}
    (h : count * width ≤ bytes.length) (hp : piece ∈ pieces width count bytes) :
    piece.length = width := by
  obtain ⟨i, hi⟩ := List.mem_iff_getElem?.mp hp
  have hcount : i < count := by
    have := (List.getElem?_eq_some_iff.mp hi).1
    rwa [length_pieces] at this
  rw [getElem?_pieces hcount] at hi
  have hlast : (i + 1) * width ≤ count * width := Nat.mul_le_mul_right width hcount
  rw [Nat.succ_mul] at hlast
  rw [← Option.some.inj hi, List.length_take, List.length_drop]
  omega

end LatticeSeries
