import Mathlib

/-!
# Counting a text, or writing it into a buffer

An output routine that is run twice, first without a buffer to learn the length of its
text and then with one, is made of pieces that all work both ways. What a piece writes is
followed by one more element that the next piece overwrites, a terminator for most.
-/
namespace DynamicPartitions.Lib.Buffer

variable {α : Type*}

/-- Elements put at an offset, if they lie inside the buffer. -/
def store (memory : List α) (offset : Nat) (elements : List α) : Option (List α) :=
  if offset + elements.length ≤ memory.length then
    some (memory.take offset ++ elements ++ memory.drop (offset + elements.length))
  else none

/-- A piece of an output, run at an offset of the buffer or without one: `none` when it
writes outside, else the length of its text, unless it fails, and the buffer. -/
def Piece (α : Type*) : Type _ := Option Nat → List α → Option (Option Nat × List α)

/-- One piece behind the other, up to the first failure. -/
def Piece.andThen (first second : Piece α) : Piece α := fun buf memory => do
  let (written, memory) ← first buf memory
  match written with
  | none => some (none, memory)
  | some written => do
    let (more, memory) ← second (buf.map (· + written)) memory
    some (more.map (written + ·), memory)

def Piece.nothing : Piece α := fun _ memory => some (some 0, memory)

def Piece.failure : Piece α := fun _ memory => some (none, memory)

/-- A text, put down with what closes it. -/
def Piece.text (text closing : List α) : Piece α
  | none, memory => some (some text.length, memory)
  | some offset, memory =>
    (store memory offset (text ++ closing)).map fun memory => (some text.length, memory)

/-- The piece has the text, whether it counts or writes: it changes nothing in the buffer
but the place of its text and the element behind, which becomes one that `ends` admits. -/
structure Writes (ends : α → Prop) (piece : Piece α) (text : List α) : Prop where
  counts : ∀ memory, piece none memory = some (some text.length, memory)
  puts : ∀ offset memory, offset + text.length < memory.length → ∃ last, ends last ∧
    piece (some offset) memory = some (some text.length,
      memory.take offset ++ text ++ last :: memory.drop (offset + text.length + 1))

theorem Writes.mono {ends ends' : α → Prop} {piece : Piece α} {text : List α} (h : Writes ends piece text)
    (himp : ∀ a, ends a → ends' a) : Writes ends' piece text where
  counts := h.counts
  puts offset memory hroom := by
    obtain ⟨last, hends, hput⟩ := h.puts offset memory hroom
    exact ⟨last, himp last hends, hput⟩

theorem length_put {memory text : List α} {offset : Nat} (h : offset + text.length < memory.length)
    (last : α) : (memory.take offset ++ text ++ last :: memory.drop (offset + text.length + 1)).length =
      memory.length := by
  simp only [List.length_append, List.length_take, List.length_cons, List.length_drop]
  omega

theorem Writes.andThen {ends ends' : α → Prop} {first second : Piece α} {s t : List α}
    (hfirst : Writes ends first s) (hsecond : Writes ends' second t) :
    Writes ends' (first.andThen second) (s ++ t) where
  counts memory := by
    simp [Piece.andThen, hfirst.counts, hsecond.counts]
  puts offset memory hroom := by
    rw [List.length_append] at hroom
    obtain ⟨last, -, hput⟩ := hfirst.puts offset memory (by omega)
    have hlength := length_put (show offset + s.length < memory.length by omega) last
    obtain ⟨last', hends, hput'⟩ := hsecond.puts (offset + s.length) _ (by rw [hlength]; omega)
    have hfront : (memory.take offset ++ s).length = offset + s.length := by
      rw [List.length_append, List.length_take]
      omega
    have hbehind : (memory.take offset ++ s ++ last :: memory.drop (offset + s.length + 1)).drop
        (offset + s.length + t.length + 1) = memory.drop (offset + (s ++ t).length + 1) := by
      rw [← hfront, Nat.add_assoc, List.drop_length_add_append, List.drop_succ_cons, List.drop_drop, hfront,
        List.length_append]
      congr 1
      omega
    rw [List.take_left' hfront, hbehind] at hput'
    refine ⟨last', hends, ?_⟩
    rw [Piece.andThen, hput]
    simp only [Option.map_some, Option.bind_eq_bind, Option.bind_some, hput']
    simp only [List.append_assoc, List.length_append]

theorem writes_nothing : Writes (fun _ : α => True) Piece.nothing [] where
  counts _ := rfl
  puts offset memory hroom := by
    refine ⟨memory[offset], trivial, ?_⟩
    rw [List.append_nil, List.length_nil, Nat.add_zero, List.getElem_cons_drop, List.take_append_drop]
    rfl

/-- A text with a terminator. -/
theorem writes_text (text : List α) (terminator : α) :
    Writes (· = terminator) (Piece.text text [terminator]) text where
  counts _ := rfl
  puts offset memory hroom := by
    have hinside : offset + (text ++ [terminator]).length ≤ memory.length := by
      rw [List.length_append]
      exact hroom
    refine ⟨terminator, rfl, ?_⟩
    rw [Piece.text, store, if_pos hinside]
    simp [Nat.add_assoc]

/-- A text that leaves the element behind it alone. -/
theorem writes_bare (text : List α) : Writes (fun _ : α => True) (Piece.text text []) text where
  counts _ := rfl
  puts offset memory hroom := by
    have hinside : offset + (text ++ []).length ≤ memory.length := by
      rw [List.append_nil]
      omega
    refine ⟨memory[offset + text.length], trivial, ?_⟩
    rw [Piece.text, store, if_pos hinside, List.append_nil, List.getElem_cons_drop]
    rfl

/-- A whole output at the start of a buffer with room for it and its terminator. -/
theorem Writes.whole {terminator : α} {piece : Piece α} {text memory : List α}
    (h : Writes (· = terminator) piece text) (hroom : text.length < memory.length) :
    piece (some 0) memory =
      some (some text.length, text ++ terminator :: memory.drop (text.length + 1)) := by
  obtain ⟨last, rfl, hput⟩ := h.puts 0 memory (by omega)
  rw [hput, List.take_zero, List.nil_append, Nat.zero_add]

end DynamicPartitions.Lib.Buffer
