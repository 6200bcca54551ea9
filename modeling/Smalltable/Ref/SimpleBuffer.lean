import Smalltable.Ref.Connection

/-!
# The Python client's buffer (`simplebuffer.py`)

A `StringIO` is a string with a position; reading and writing move it, and writing
somewhere else than at the end writes over what is there. `SimpleBuffer` appends to one and
remembers how far it has been read. `offset` and `size` are numbers of its own; now and
then it takes a new `StringIO` and forgets the old one.

A socket answers `send` and `recv` as it likes. An exception is `none`, apart from
`EAGAIN`, which both callers catch.
-/

namespace Smalltable.Ref

structure StringIo where
  data : Bytes := []
  pos : Nat := 0
  deriving DecidableEq

namespace StringIo

def seek (f : StringIo) (pos : Nat) : StringIo := { f with pos := pos }

/-- `seek(0, os.SEEK_END)` -/
def seekEnd (f : StringIo) : StringIo := { f with pos := f.data.length }

/-- `none` reads to the end. -/
def read (f : StringIo) (size : Option Nat) : Bytes × StringIo :=
  let rest := f.data.drop f.pos
  let bs := match size with
    | none => rest
    | some n => rest.take n
  (bs, { f with pos := f.pos + bs.length })

/-- What is between the end and the position is filled up with zeros. -/
def write (f : StringIo) (bs : Bytes) : StringIo :=
  { data := f.data.take f.pos ++ List.replicate (f.pos - f.data.length) 0 ++ bs
      ++ f.data.drop (f.pos + bs.length)
    pos := f.pos + bs.length }

end StringIo

structure SimpleBuffer where
  buf : StringIo := {}
  offset : Int := 0
  size : Int := 0
  deriving DecidableEq

/-- What `recv` does: it returns bytes, or fails with `EAGAIN`. -/
inductive SocketRecv where
  | got (bs : Bytes)
  | again
  deriving DecidableEq

/-- What a socket gives in one call of `recv_from_socket`. -/
def socketBytes (rs : List SocketRecv) : Bytes :=
  rs.flatMap fun
    | .got bs => bs
    | .again => []

/-- The size `recv_from_socket` asks for. -/
def recvSize : Nat := 524288

namespace SimpleBuffer

def writeOne (b : SimpleBuffer) (data : Option Bytes) : SimpleBuffer :=
  match data with
  | none => b
  | some [] => b
  | some bs => { b with buf := b.buf.write bs, size := b.size + bs.length }

def write (b : SimpleBuffer) (dataStrings : List (Option Bytes)) : SimpleBuffer :=
  dataStrings.foldl writeOne b

/-- `SimpleBuffer(data)` -/
def new (data : Option Bytes) : SimpleBuffer :=
  let b : SimpleBuffer := match data with
    | none => {}
    | some bs => write ({} : SimpleBuffer) [some bs]
  { b with buf := b.buf.seekEnd }

def read (b : SimpleBuffer) (size : Option Nat) : Bytes × SimpleBuffer :=
  if size = some 0 then ([], b)
  else
    let r := (b.buf.seek b.offset.toNat).read size
    (r.1, { b with buf := r.2.seekEnd })

def consume (b : SimpleBuffer) (size : Int) : SimpleBuffer :=
  let b := { b with offset := b.offset + size, size := b.size - size }
  -- the old `StringIO` is given up
  if b.size = 0 ∧ b.offset > 65536 then { b with buf := {}, offset := 0 } else b

/-- The assertion that there is so much is `none`. -/
def readAndConsume (b : SimpleBuffer) (size : Nat) : Option (Bytes × SimpleBuffer) :=
  if b.size ≥ size then
    let r := b.read (some size)
    some (r.1, r.2.consume size)
  else none

/-- What `send_to_socket` hands to the socket. -/
def sendData (b : SimpleBuffer) : Bytes := ((b.buf.seek b.offset.toNat).read none).1

/-- With the number of bytes the socket took, or nothing where it took none. -/
def sendToSocket (b : SimpleBuffer) (r : SendResult) : Option (Option Nat × SimpleBuffer) :=
  let buf := ((b.buf.seek b.offset.toNat).read none).2
  match r with
  | .error => none
  | .again => some (none, { b with buf := buf })
  | .sent n =>
      let b := { b with buf := buf.seekEnd, offset := b.offset + n, size := b.size - n }
      some (some n, if b.offset > 524288 ∧ b.size = 0 then b.consume 0 else b)

/-- The loop of `recv_from_socket`, having received `s` bytes; the results of `recv` are as
many as it asks for. -/
def recvLoop (b : SimpleBuffer) (s : Nat) : List SocketRecv → Option (Option Nat × SimpleBuffer)
  | [] => none
  | .again :: rest => if rest = [] then some (none, b) else none
  | .got data :: rest =>
      let b := b.write [some data]
      if data.length = recvSize then b.recvLoop (s + data.length) rest
      else if rest = [] then some (some (s + data.length), b)
      else none

def recvFromSocket (b : SimpleBuffer) (rs : List SocketRecv) :
    Option (Option Nat × SimpleBuffer) :=
  b.recvLoop 0 rs

def flush (b : SimpleBuffer) : SimpleBuffer := b.consume b.size

/-- `len` -/
def len (b : SimpleBuffer) : Int := b.size

end SimpleBuffer

/-! ## Everything that can be done with one -/

inductive BufferCall where
  | write (dataStrings : List (Option Bytes))
  | read (size : Option Nat)
  | consume (size : Nat)
  | readAndConsume (size : Nat)
  | sendToSocket (r : SendResult)
  | recvFromSocket (rs : List SocketRecv)
  | flush

/-- What the caller, and the socket, get from it. -/
inductive BufferAnswer where
  | nothing
  | bytes (bs : Bytes)
  /-- what was handed to the socket, and how much it took -/
  | sent (data : Bytes) (r : Option Nat)
  | received (s : Option Nat)
  deriving DecidableEq

def SimpleBuffer.call (b : SimpleBuffer) : BufferCall → Option (BufferAnswer × SimpleBuffer)
  | .write dataStrings => some (.nothing, b.write dataStrings)
  | .read size => some (.bytes (b.read size).1, (b.read size).2)
  | .consume size => some (.nothing, b.consume size)
  | .readAndConsume size => (b.readAndConsume size).map fun r => (.bytes r.1, r.2)
  | .sendToSocket r => (b.sendToSocket r).map fun s => (.sent b.sendData s.1, s.2)
  | .recvFromSocket rs => (b.recvFromSocket rs).map fun s => (.received s.1, s.2)
  | .flush => some (.nothing, b.flush)

/-- One call after another, with all answers. -/
def SimpleBuffer.calls (b : SimpleBuffer) : List BufferCall →
    Option (List BufferAnswer × SimpleBuffer)
  | [] => some ([], b)
  | c :: rest =>
      match b.call c with
      | none => none
      | some (a, b) => (b.calls rest).map fun r => (a :: r.1, r.2)

end Smalltable.Ref
