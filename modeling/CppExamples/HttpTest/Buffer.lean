import CppExamples.Library.Memory

/-! # `struct buffer`

The block behind `data` is a memory with `totalSize` cells.  Every copy into or
inside it checks that it stays in the block, and the one `int` addition that can
overflow is checked too: an operation without result is one that C leaves
undefined.  `realloc` is a parameter, `none` for `NULL`, else what the added cells
hold.
-/
namespace CppExamples.HttpTest
open Memory

abbrev Byte := UInt8

def intMax : ℕ := 2147483647

def initBufferSize : ℕ := 65536

structure Buffer where
  data : ℕ → Byte
  readIndex : ℕ
  writeIndex : ℕ
  totalSize : ℕ

/-- `buffer_new`, with whatever `malloc` left in the block. -/
def bufferNew (block : ℕ → Byte) : Buffer where
  data := block
  readIndex := 0
  writeIndex := 0
  totalSize := initBufferSize

namespace Buffer

def writeableSize (buffer : Buffer) : ℕ := buffer.totalSize - buffer.writeIndex
def readableSize (buffer : Buffer) : ℕ := buffer.writeIndex - buffer.readIndex
def frontSpareSize (buffer : Buffer) : ℕ := buffer.readIndex

def readable (buffer : Buffer) : List Byte := load buffer.data buffer.readIndex buffer.readableSize

/-- `memcpy(data + offset, bytes, size)`. -/
def memcpy (buffer : Buffer) (offset : ℕ) (bytes : List Byte) : Option Buffer :=
  if offset + bytes.length ≤ buffer.totalSize then
    some { buffer with data := store buffer.data offset bytes }
  else none

/-- `memcpy(data + dst, data + src, 1)`. -/
def copyByte (buffer : Buffer) (dst src : ℕ) : Option Buffer :=
  if dst < buffer.totalSize ∧ src < buffer.totalSize then
    some { buffer with data := Function.update buffer.data dst (buffer.data src) }
  else none

/-- The byte-by-byte loop of `make_room`. -/
def compact (buffer : Buffer) (readable : ℕ) : Option Buffer :=
  (List.range readable).foldlM (fun b i => b.copyByte i (buffer.readIndex + i)) buffer

def grow (buffer : Buffer) (size : ℕ) (fresh : ℕ → Byte) : Buffer :=
  { buffer with
    data := fun i => if i < buffer.totalSize then buffer.data i else fresh i
    totalSize := buffer.totalSize + size }

end Buffer

def makeRoom (buffer : Buffer) (size : ℕ) (realloc : Option (ℕ → Byte)) : Option Buffer :=
  if size ≤ buffer.writeableSize then some buffer
  else if size ≤ buffer.frontSpareSize + buffer.writeableSize then
    (buffer.compact buffer.readableSize).map fun b =>
      { b with readIndex := 0, writeIndex := buffer.readableSize }
  else if buffer.totalSize + size ≤ intMax then
    match realloc with
    | none => some buffer
    | some fresh => some (buffer.grow size fresh)
  else none

/-- `buffer_append` of the bytes at `data`; `none` is a `NULL` pointer. -/
def bufferAppend (buffer : Buffer) (data : Option (List Byte)) (realloc : Option (ℕ → Byte)) :
    Option Buffer :=
  match data with
  | none => some buffer
  | some bytes => do
    let b ← makeRoom buffer bytes.length realloc
    let b' ← b.memcpy b.writeIndex bytes
    return { b' with writeIndex := b.writeIndex + bytes.length }

def bufferAppendChar (buffer : Buffer) (data : Byte) (realloc : Option (ℕ → Byte)) :
    Option Buffer := do
  let b ← makeRoom buffer 1 realloc
  let b' ← b.memcpy b.writeIndex [data]
  return { b' with writeIndex := b.writeIndex + 1 }

def cString (chars : List Byte) : List Byte := chars.takeWhile (· ≠ 0)

def bufferAppendString (buffer : Buffer) (data : Option (List Byte)) (realloc : Option (ℕ → Byte)) :
    Option Buffer :=
  match data with
  | none => some buffer
  | some chars => bufferAppend buffer (some (cString chars)) realloc

/-- `buffer_socket_read`, given the bytes `readv` received (`none` when it
returned -1): they fill the block behind `writeIndex` first and the stack buffer
after it. -/
def bufferSocketRead (buffer : Buffer) (readv : Option (List Byte)) (realloc : Option (ℕ → Byte)) :
    Option (Buffer × ℤ) :=
  match readv with
  | none => some (buffer, -1)
  | some received => do
    let maxWritable := buffer.writeableSize
    let b ← buffer.memcpy buffer.writeIndex (received.take maxWritable)
    if received.length ≤ maxWritable then
      return ({ b with writeIndex := b.writeIndex + received.length }, received.length)
    else
      let b' ← bufferAppend { b with writeIndex := b.totalSize } (some (received.drop maxWritable)) realloc
      return (b', received.length)

def bufferReadChar (buffer : Buffer) : Option (Buffer × Byte) :=
  if buffer.readIndex < buffer.totalSize then
    some ({ buffer with readIndex := buffer.readIndex + 1 }, buffer.data buffer.readIndex)
  else none

end CppExamples.HttpTest
