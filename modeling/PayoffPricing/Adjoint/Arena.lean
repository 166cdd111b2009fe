import PayoffPricing.Word
/-!
Block storage. Elements are kept in blocks of fixed capacity that are never moved, so a position
stays good until the arena is rewound past it; rewinding keeps the blocks for reuse.
-/

namespace PayoffPricing

/-- A place in an arena. Positions are ordered by block, then by slot. -/
structure Position where
  block : Nat
  slot : Nat
deriving DecidableEq, Repr

namespace Position

def start : Position := ⟨0, 0⟩

def next (p : Position) : Position := ⟨p.block, p.slot + 1⟩

/-- The next position of the same block, if its slot is a word. -/
def next? (p : Position) : Option Position := (Word.next? p.slot).map fun slot => ⟨p.block, slot⟩

/-- The position `k` slots further in the same block. -/
def shift (p : Position) (k : Nat) : Position := ⟨p.block, p.slot + k⟩

instance : LT Position := ⟨fun p q => p.block < q.block ∨ (p.block = q.block ∧ p.slot < q.slot)⟩

instance : LE Position := ⟨fun p q => p.block < q.block ∨ (p.block = q.block ∧ p.slot ≤ q.slot)⟩

instance : DecidableLT Position := fun p q =>
  inferInstanceAs (Decidable (p.block < q.block ∨ (p.block = q.block ∧ p.slot < q.slot)))

instance : DecidableLE Position := fun p q =>
  inferInstanceAs (Decidable (p.block < q.block ∨ (p.block = q.block ∧ p.slot ≤ q.slot)))

end Position

/-- A stretch of storage with room for `capacity` elements. -/
structure Block (α : Type) where
  capacity : Nat
  items : Array α

namespace Block

variable {α : Type}

def empty (capacity : Nat) : Block α := ⟨capacity, #[]⟩

def room (b : Block α) : Nat := b.capacity - b.items.size

def push (b : Block α) (a : α) : Block α := { b with items := b.items.push a }

/-- Appends `n` copies of `a`. -/
def fill (b : Block α) (n : Nat) (a : α) : Block α :=
  { b with items := b.items ++ Array.replicate n a }

/-- Keeps the first `n` elements. -/
def truncate (b : Block α) (n : Nat) : Block α := { b with items := b.items.shrink n }

def map (b : Block α) (f : α → α) : Block α := { b with items := b.items.map f }

end Block

/-- Blocks, the one being filled, and a checkpoint. -/
structure Arena (α : Type) where
  blocks : Array (Block α)
  blockSize : Nat
  current : Nat
  mark : Position
  blockSize_pos : 0 < blockSize
  current_lt : current < blocks.size

namespace Arena

variable {α : Type}

def empty (blockSize : Nat) (h : 0 < blockSize) : Arena α where
  blocks := #[.empty blockSize]
  blockSize := blockSize
  current := 0
  mark := .start
  blockSize_pos := h
  current_lt := by simp

/-- An empty arena; blocks without room are refused, and blocks that cannot be stored. -/
def ofBlockSize (blockSize : Nat) : Except Misuse (Arena α) :=
  if h : 0 < blockSize then do
    Word.demand blockSize
    return empty blockSize h
  else .error .emptyBlock

/-- The number of blocks, in use or kept for reuse. -/
def allocated (a : Arena α) : Nat := a.blocks.size

def currentBlock (a : Arena α) : Block α := getElem a.blocks a.current a.current_lt

/-- One past the last element. -/
def stop (a : Arena α) : Position := ⟨a.current, a.currentBlock.items.size⟩

def length (a : Arena α) : Nat :=
  (a.blocks.toList.take (a.current + 1)).foldl (fun n b => n + b.items.size) 0

def isEmpty (a : Arena α) : Bool := a.current == 0 && a.currentBlock.items.isEmpty

def contains (a : Arena α) (p : Position) : Bool :=
  p.block ≤ a.current && (a.blocks[p.block]?.any fun b => p.slot < b.items.size)

def get? (a : Arena α) (p : Position) : Option α :=
  a.blocks[p.block]?.bind (·.items[p.slot]?)

/-- The `n` elements from `p` on, when one block holds them all. -/
def slice? (a : Arena α) (p : Position) (n : Nat) : Option (List α) :=
  a.blocks[p.block]?.bind fun b =>
    if p.slot + n ≤ b.items.size then some (b.items.extract p.slot (p.slot + n)).toList else none

/-- Changes the block of index `i`. -/
def modifyBlock (a : Arena α) (i : Nat) (f : Block α → Block α) : Arena α :=
  { a with blocks := a.blocks.modify i f, current_lt := by simpa using a.current_lt }

/-- Changes the element at `p`. -/
def modify (a : Arena α) (p : Position) (f : α → α) : Arena α :=
  a.modifyBlock p.block fun b => { b with items := b.items.modify p.slot f }

/-- Writes consecutive elements from `p` on. -/
def write (a : Arena α) (p : Position) (values : List α) : Arena α :=
  a.modifyBlock p.block fun b =>
    { b with items := (values.zipIdx p.slot).foldl (fun items (v, i) => items.setIfInBounds i v) b.items }

/-- Moves on to a block with room for `n` elements in a row. -/
def advance (a : Arena α) (n : Nat) : Arena α :=
  let capacity := max n a.blockSize
  let next := a.current + 1
  if h : next < a.blocks.size then
    if (a.blocks[next]).capacity < n then
      { a with
        blocks := a.blocks.set next (.empty capacity)
        current := next
        current_lt := by simpa using h }
    else { a with current := next, current_lt := h }
  else
    { a with
      blocks := a.blocks.push (.empty capacity)
      current := next
      current_lt := by have := a.current_lt; simp; omega }

/-- The arena whose current block has room for `n` more elements. -/
def withRoom (a : Arena α) (n : Nat) : Arena α :=
  if n > a.currentBlock.room then a.advance n else a

/-- Stores one element. -/
def push (a : Arena α) (v : α) : Position × Arena α :=
  let a := a.withRoom 1
  (a.stop, a.modifyBlock a.current (·.push v))

/-- Stores `n` copies of `v` in a row. -/
def reserve (a : Arena α) (n : Nat) (v : α) : Position × Arena α :=
  let a := a.withRoom n
  (a.stop, a.modifyBlock a.current (·.fill n v))

/-- Stores `n` copies of `v` in a row, where a block can have room for them. -/
def tryReserve (a : Arena α) (n : Nat) (v : α) : Except Misuse (Position × Arena α) := do
  Word.demand n
  return a.reserve n v

/-- Gives back the last `n` elements of the current block. -/
def giveBack (a : Arena α) (n : Nat) : Arena α :=
  a.modifyBlock a.current fun b => b.truncate (b.items.size - n)

/-- Gives back `n` elements, all of which must lie in the current block. -/
def pop (a : Arena α) (n : Nat) : Except Misuse (Arena α) :=
  if n ≤ a.currentBlock.items.size then .ok (a.giveBack n) else .error .popPastBlock

def setMark (a : Arena α) : Arena α := { a with mark := a.stop }

/-- Drops all elements after the checkpoint. -/
def rewindToMark (a : Arena α) : Arena α :=
  if h : a.mark.block < a.blocks.size then
    { a with
      blocks := a.blocks.mapIdx fun i b =>
        if i = a.mark.block then b.truncate a.mark.slot
        else if a.mark.block < i ∧ i ≤ a.current then b.truncate 0 else b
      current := a.mark.block
      current_lt := by simpa using h }
  else a

/-- Drops all elements and the checkpoint, and keeps the blocks. -/
def rewind (a : Arena α) : Arena α :=
  { a with
    blocks := a.blocks.map (·.truncate 0)
    current := 0
    mark := .start
    current_lt := by have := a.current_lt; simp; omega }

/-- Drops all elements, the checkpoint and all blocks but one. -/
def clear (a : Arena α) : Arena α := empty a.blockSize a.blockSize_pos

def map (a : Arena α) (f : α → α) : Arena α :=
  { a with blocks := a.blocks.map (·.map f), current_lt := by simpa using a.current_lt }

/-- The elements of block `b` with slots in `[first, last)`, with their positions. -/
def blockRange (a : Arena α) (b first last : Nat) : List (Position × α) :=
  match a.blocks[b]? with
  | none => []
  | some block =>
    ((block.items.extract first last).toList.zipIdx (min first block.items.size)).map fun (v, i) =>
      (⟨b, i⟩, v)

/-- The elements at positions in `[first, last)`, in the order they were stored. -/
def range (a : Arena α) (first last : Position) : List (Position × α) :=
  let final := min last.block a.current
  (List.range' first.block (final + 1 - first.block)).flatMap fun b =>
    a.blockRange b (if b = first.block then first.slot else 0)
      (if b = last.block then last.slot else (a.blocks[b]?.elim 0 (·.items.size)))

/-- All elements in the order they were stored. -/
def toList (a : Arena α) : List (Position × α) := a.range .start a.stop

/-- The last element that satisfies `p`. -/
def find? (a : Arena α) (p : α → Bool) : Option Position :=
  (a.toList.reverse.find? fun (_, v) => p v).map (·.1)

end Arena

end PayoffPricing
