/-!
# The arena

A buffer keeps its bytes in one array whose size never changes. Two things are done to it: bytes are
written from some index on, over whatever was there, and a stretch of it is moved to the front. The
stretch may overlap the place it is moved to, so it is read in full before anything is written.
-/

namespace Lookahead.Arena

def slice (arena : Array UInt8) (start stop : Nat) : List UInt8 :=
  (arena.extract start stop).toList

def write (arena : Array UInt8) (start : Nat) : List UInt8 → Array UInt8
  | [] => arena
  | byte :: rest => write (arena.setIfInBounds start byte) (start + 1) rest

def moveToFront (arena : Array UInt8) (start stop : Nat) : Array UInt8 :=
  write arena 0 (slice arena start stop)

theorem slice_eq (arena : Array UInt8) (start stop : Nat) :
    slice arena start stop = (arena.toList.take stop).drop start := by
  rw [slice, Array.toList_extract, List.extract_eq_take_drop, List.drop_take]

theorem slice_length {arena : Array UInt8} {start stop : Nat} (h : stop ≤ arena.size) :
    (slice arena start stop).length = stop - start := by
  rw [slice_eq, List.length_drop, List.length_take, Array.length_toList, Nat.min_eq_left h]

@[simp] theorem write_size (arena : Array UInt8) (start : Nat) (bytes : List UInt8) :
    (write arena start bytes).size = arena.size := by
  induction bytes generalizing arena start with
  | nil => rfl
  | cons byte rest ih => rw [write, ih, Array.size_setIfInBounds]

@[simp] theorem moveToFront_size (arena : Array UInt8) (start stop : Nat) :
    (moveToFront arena start stop).size = arena.size :=
  write_size _ _ _

/-- The written bytes stand where they were written, as far as the arena goes. -/
theorem write_take_add {arena : Array UInt8} {start : Nat} {bytes : List UInt8}
    (h : start + bytes.length ≤ arena.size) :
    (write arena start bytes).toList.take (start + bytes.length)
      = arena.toList.take start ++ bytes := by
  induction bytes generalizing arena start with
  | nil => simp [write]
  | cons byte rest ih =>
      rw [List.length_cons] at h
      have hstart : start < arena.toList.length := by
        rw [Array.length_toList]; omega
      have hset : (arena.setIfInBounds start byte).toList.take (start + 1)
          = arena.toList.take start ++ [byte] := by
        rw [Array.toList_setIfInBounds, List.take_add_one, List.take_set_of_le (Nat.le_refl _),
          List.getElem?_set_self hstart]
        rfl
      have hrest : (write (arena.setIfInBounds start byte) (start + 1) rest).toList.take
            (start + 1 + rest.length)
          = (arena.setIfInBounds start byte).toList.take (start + 1) ++ rest :=
        ih (by rw [Array.size_setIfInBounds]; omega)
      rw [hset] at hrest
      rw [List.length_cons, Nat.add_comm rest.length 1, ← Nat.add_assoc, write, hrest,
        List.append_assoc]
      rfl

/-- Nothing is written outside the stretch that the bytes take up. -/
theorem getElem?_write {arena : Array UInt8} {start : Nat} {bytes : List UInt8} {index : Nat}
    (h : index < start ∨ start + bytes.length ≤ index) :
    (write arena start bytes)[index]? = arena[index]? := by
  induction bytes generalizing arena start with
  | nil => rfl
  | cons byte rest ih =>
      rw [List.length_cons] at h
      rw [write, ih (by omega), Array.getElem?_setIfInBounds_ne (by omega)]

/-- A move to the front keeps the bytes moved, also where they overlap the front. -/
theorem moveToFront_take {arena : Array UInt8} {start stop : Nat} (h : stop ≤ arena.size) :
    (moveToFront arena start stop).toList.take (stop - start)
      = (arena.toList.take stop).drop start := by
  have hlength : (slice arena start stop).length = stop - start := slice_length h
  have hwritten : (write arena 0 (slice arena start stop)).toList.take
        (0 + (slice arena start stop).length)
      = arena.toList.take 0 ++ slice arena start stop :=
    write_take_add (by omega)
  rw [Nat.zero_add, hlength, List.take_zero, List.nil_append] at hwritten
  rw [moveToFront, hwritten, slice_eq]

end Lookahead.Arena
