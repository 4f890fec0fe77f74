import Mathlib.Algebra.Order.Group.Int
import Mathlib.Data.List.Basic
import Mathlib.Tactic.Common

/-!
# Socket client and server (`lab3Signals/client.c`, `lab3Signals/server.c`)

The results of `read` are the input of a run; a run that is given no more of
them waits in `read`. Every write to `data` goes on record, also one outside the
array, which changes nothing in it.
-/

set_option autoImplicit false

namespace Ence360.Signals.Socket

abbrev Byte := UInt8

/-- What `read(sockfd, data, 511)` can place at the front of `data`. -/
structure Message where
  bytes : List Byte
  fits : bytes.length ≤ 511
  deriving DecidableEq

/-- A message of no bytes is the end of the connection. -/
inductive ReadResult where
  | failed
  | received (message : Message)
  deriving DecidableEq

def ReadResult.bytes : ReadResult → List Byte
  | .failed => []
  | .received message => message.bytes

def ReadResult.numBytes : ReadResult → ℤ
  | .failed => -1
  | .received message => message.bytes.length

inductive Event where
  | read (result : ReadResult)
  | wrote (index : ℤ)
  | sent (bytes : List Byte)
  | printed (label : List Char) (text : Option (List Byte))
  deriving DecidableEq

/-- The array `char data[512]`. -/
structure Data where
  bytes : List Byte
  length_eq : bytes.length = 512

def Data.zero : Data where
  bytes := List.replicate 512 0
  length_eq := List.length_replicate

/-- Bytes placed at the front of the array. -/
def Data.place (data : Data) (front : List Byte) : Data where
  bytes := (front ++ data.bytes.drop front.length).take 512
  length_eq := by
    have length := data.length_eq
    simp only [List.length_take, List.length_append, List.length_drop]
    omega

def Data.set (data : Data) (index : ℤ) (byte : Byte) : Data where
  bytes := if 0 ≤ index then data.bytes.set index.toNat byte else data.bytes
  length_eq := by
    split
    · rw [List.length_set, data.length_eq]
    · exact data.length_eq

/-- The bytes up to the first `'\0'`. -/
def untilNul (bytes : List Byte) : List Byte :=
  bytes.takeWhile (· ≠ 0)

/-- What `%s` prints; without a terminator it reads past the array. -/
def cString (bytes : List Byte) : Option (List Byte) :=
  if 0 ∈ bytes then some (untilNul bytes) else none

structure Session where
  data : Data
  trace : List Event

namespace Session

def start : Session where
  data := .zero
  trace := []

/-- The indices `0, ..., count - 1` are written. -/
def wrote (count : ℕ) : List Event :=
  (List.range count).map fun index => .wrote index

def read (session : Session) (result : ReadResult) : Session where
  data := session.data.place result.bytes
  trace := session.trace ++ .read result :: wrote result.bytes.length

/-- The text and its terminator. -/
def sprintf (session : Session) (text : List Byte) : Session where
  data := session.data.place (text ++ [0])
  trace := session.trace ++ wrote (text.length + 1)

def write (session : Session) (numBytes : ℕ) : Session where
  data := session.data
  trace := session.trace ++ [.sent (session.data.bytes.take numBytes)]

/-- `data[index] = '\0'` -/
def terminate (session : Session) (index : ℤ) : Session where
  data := session.data.set index 0
  trace := session.trace ++ [.wrote index]

def printf (session : Session) (label : List Char) : Session where
  data := session.data
  trace := session.trace ++ [.printed label (cString session.data.bytes)]

end Session

def serverReply : List Byte :=
  ['H', 'e', 'l', 'l', 'o', ' ', 't', 'o', ' ', 'y', 'o', 'u', ' ', 't', 'o', 'o', '!'].map
    Char.toUInt8

def clientGreeting : List Byte :=
  ['H', 'e', 'l', 'l', 'o', ' ', 's', 'e', 'r', 'v', 'e', 'r', '!'].map Char.toUInt8

def fromClient : List Char := ['F', 'r', 'o', 'm', ' ', 'c', 'l', 'i', 'e', 'n', 't', ':', ' ']

def fromServer : List Char := ['F', 'r', 'o', 'm', ' ', 's', 'e', 'r', 'v', 'e', 'r', ':', ' ']

def serverLoop (results : List ReadResult) (numBytes : ℤ) (session : Session) : Session :=
  if numBytes > 0 then
    let session := session.printf fromClient
    let session := session.sprintf serverReply
    let session := session.write serverReply.length
    match results with
    | [] => session
    | result :: rest =>
        let session := session.read result
        let session := session.terminate result.numBytes
        serverLoop rest result.numBytes session
  else session

/-- The first message is not terminated: the array starts zeroed. -/
def server : List ReadResult → Session
  | [] => .start
  | result :: rest => serverLoop rest result.numBytes (Session.start.read result)

def clientLoop (results : List ReadResult) (numBytes : ℤ) (session : Session) : Session :=
  if numBytes > 0 then
    let session := session.sprintf clientGreeting
    let session := session.write clientGreeting.length
    match results with
    | [] => session
    | result :: rest =>
        let session := session.read result
        let session := session.terminate result.numBytes
        let session := session.printf fromServer
        clientLoop rest result.numBytes session
  else session

def client (results : List ReadResult) : Session :=
  clientLoop results 511 .start

end Ence360.Signals.Socket
