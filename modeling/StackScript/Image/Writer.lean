import StackScript.Constant
import StackScript.Image.Error

/-!
# Writing images

An image is written from its first byte to its last into a sink, which may have limited room. The
writer sees a value one layer at a time: it is given a function that shows the outermost layer of a
value, and goes down at most `maxDepth` layers. So the same writer serves finite trees, whose layers
are their own, and live values, whose layers are looked up in a store and need not end.

When writing fails, the sink keeps what was written up to then.
-/

namespace StackScript.Image

/-- A place for the bytes of an image. -/
structure Sink where
  /-- How many more bytes the sink takes; without a number, any. -/
  room : Option Nat := none
  bytes : Array UInt8 := #[]

/-- Something that writes to a sink and may fail on the way. -/
abbrev Writer := EStateM Error Sink Unit

namespace Writer

variable {α : Type}

/-- Writes bytes. A sink without enough room takes as many as it can. -/
def bytes (bs : List UInt8) : Writer := fun sink =>
  match sink.room with
  | none => .ok () { sink with bytes := sink.bytes ++ bs.toArray }
  | some n =>
    let taken : Sink := ⟨some (n - bs.length), sink.bytes ++ (bs.take n).toArray⟩
    if bs.length ≤ n then .ok () taken else .error .sinkFull taken

def word (n : UInt32) : Writer := bytes (Word.bytes32 n)

def long (n : UInt64) : Writer := bytes (Word.bytes64 n)

def flag (b : Bool) : Writer := bytes [if b then 1 else 0]

def tag (t : Tag) : Writer := bytes [t.byte]

def length (part : Part) (n : Nat) : Writer :=
  if n < 2 ^ 32 then word n.toUInt32 else throw (.tooLarge part)

/-- Writes the length of a list and then its members. -/
def list (part : Part) (item : α → Writer) (items : List α) : Writer := do
  length part items.length
  items.forM item

def string (s : String) : Writer := do
  length .string s.utf8ByteSize
  bytes s.toUTF8.toList

def mark (m : Span) : Writer := do
  word m.start
  word m.length

/-- Writes a chunk, given how its constants are written. A chunk without a name gets an empty one.
Nothing is written of a chunk that lacks a source position for some byte of its code. -/
def chunk (value : α → Writer) (c : Chunk α) : Writer := do
  if c.marks.size ≠ c.code.size then
    throw (.marksMismatch c.code.size c.marks.size)
  string (c.name.getD "")
  length .code c.code.size
  bytes c.code.toList
  list .constants value c.constants
  list .marks mark c.marks.toList

def function (value : α → Writer) (f : Function α) : Writer := do
  word f.arity
  chunk value f.chunk

def cell (value : α → Writer) (c : Cell α) : Writer := do
  word c.slot
  word c.position
  match c.closed with
  | none => flag false
  | some v => do
    flag true
    value v

def closure (value : α → Writer) (c : Closure α (Cell α)) : Writer := do
  function value c.function
  list .captures (cell value) c.captures

def record (value : α → Writer) (r : Record (Closure α (Cell α))) : Writer := do
  string r.name
  list .fieldNames string r.fields
  list .methods (closure value) r.methods

/-- Writes one layer of a value, given how the values inside it are written. -/
def node (value : α → Writer) : Node α → Writer
  | .int n => do
    tag .int
    long n.toUInt64
  | .float x => do
    tag .float
    long x.bits
  | .string s => do
    tag .string
    string s
  | .char c => do
    tag .char
    word c.val
  | .bool b => do
    tag .bool
    flag b
  | .nil => tag .nil
  | .void => tag .void
  | .function f => do
    tag .function
    function value f
  | .closure c => do
    tag .closure
    closure value c
  | .native n => throw (.native n.name)
  | .range r => do
    tag .range
    long r.next.toUInt64
    long r.bound.toUInt64
    long r.step.toUInt64
    flag r.inclusive
    flag r.exhausted
  | .record r => do
    tag .record
    record value r
  | .instanceOf fields r => do
    tag .instanceOf
    list .fields value fields
    record value r
  | .bound receiver method => do
    tag .bound
    value receiver
    closure value method

/-- Writes a value of which at most `depth` layers are looked at. -/
def value (view : α → Node α) : (depth : Nat) → α → Writer
  | 0, _ => throw .tooDeep
  | depth + 1, v => node (value view depth) (view v)

end Writer

/-- Writes a chunk whose constants are seen through `view`, and gives the sink and, if writing
failed, the error. -/
def write {α : Type} (view : α → Node α) (c : Chunk α) (sink : Sink) : Option Error × Sink :=
  match Writer.chunk (Writer.value view maxDepth) c sink with
  | .ok () sink => (none, sink)
  | .error e sink => (some e, sink)

/-- The image of a chunk whose constants are seen through `view`. -/
def encodeWith {α : Type} (view : α → Node α) (c : Chunk α) : Except Error (Array UInt8) :=
  match write view c {} with
  | (none, sink) => .ok sink.bytes
  | (some e, _) => .error e

def encode (c : Chunk Constant) : Except Error (Array UInt8) := encodeWith Constant.node c

end StackScript.Image
