import Ence360.Signals.Socket

/-!
# What the two programs write and print

A message and the terminator behind it hide whatever the array held before. A
failed `read` places nothing, and its result `-1` as an index lies outside the
array.
-/

set_option autoImplicit false

namespace Ence360.Signals.Socket

/-- From a point where the last `read` placed these bytes on, every index written
lies in the array, and what is printed is what the `read` before it placed, up to
the first `'\0'`. -/
def SafeFrom (received : List Byte) : List Event → Prop
  | [] => True
  | .read result :: rest => SafeFrom result.bytes rest
  | .wrote index :: rest => (0 ≤ index ∧ index ≤ 511) ∧ SafeFrom received rest
  | .sent _ :: rest => SafeFrom received rest
  | .printed _ text :: rest => text = some (untilNul received) ∧ SafeFrom received rest

def lastReceived (received : List Byte) : List Event → List Byte
  | [] => received
  | .read result :: rest => lastReceived result.bytes rest
  | .wrote _ :: rest => lastReceived received rest
  | .sent _ :: rest => lastReceived received rest
  | .printed _ _ :: rest => lastReceived received rest

def Safe (trace : List Event) : Prop :=
  SafeFrom [] trace

theorem safeFrom_append (received : List Byte) (first second : List Event) :
    SafeFrom received (first ++ second) ↔
      SafeFrom received first ∧ SafeFrom (lastReceived received first) second := by
  induction first generalizing received with
  | nil => simp [SafeFrom, lastReceived]
  | cons event rest ih =>
      cases event with
      | read result => exact ih result.bytes
      | wrote index => simp only [List.cons_append, SafeFrom, lastReceived, ih, and_assoc]
      | sent bytes => exact ih received
      | printed label text => simp only [List.cons_append, SafeFrom, lastReceived, ih, and_assoc]

theorem lastReceived_append (received : List Byte) (first second : List Event) :
    lastReceived received (first ++ second) =
      lastReceived (lastReceived received first) second := by
  induction first generalizing received with
  | nil => rfl
  | cons event rest ih =>
      cases event with
      | read result => exact ih result.bytes
      | wrote index => exact ih received
      | sent bytes => exact ih received
      | printed label text => exact ih received

theorem wrote_succ (count : ℕ) :
    Session.wrote (count + 1) = Session.wrote count ++ [.wrote count] := by
  simp [Session.wrote, List.range_succ]

theorem lastReceived_wrote (received : List Byte) (count : ℕ) :
    lastReceived received (Session.wrote count) = received := by
  induction count with
  | zero => rfl
  | succ count ih =>
      rw [wrote_succ, lastReceived_append, ih]
      rfl

theorem safeFrom_wrote (received : List Byte) {count : ℕ} (fits : count ≤ 512) :
    SafeFrom received (Session.wrote count) := by
  induction count with
  | zero => trivial
  | succ count ih =>
      rw [wrote_succ, safeFrom_append]
      exact ⟨ih (by omega), ⟨by omega, by omega⟩, trivial⟩

section Operations

variable (session : Session)

theorem read_safe (result : ReadResult) :
    Safe (session.read result).trace ↔ Safe session.trace := by
  have fits : result.bytes.length ≤ 512 := by
    cases result with
    | failed => exact Nat.zero_le 512
    | received message => exact message.fits.trans (by decide)
  rw [Session.read, Safe, safeFrom_append]
  exact and_iff_left (safeFrom_wrote _ fits)

theorem sprintf_safe {text : List Byte} (fits : text.length < 512) :
    Safe (session.sprintf text).trace ↔ Safe session.trace := by
  rw [Session.sprintf, Safe, safeFrom_append]
  exact and_iff_left (safeFrom_wrote _ fits)

theorem write_safe (numBytes : ℕ) : Safe (session.write numBytes).trace ↔ Safe session.trace := by
  rw [Session.write, Safe, safeFrom_append]
  exact and_iff_left trivial

theorem terminate_safe (index : ℤ) :
    Safe (session.terminate index).trace ↔ Safe session.trace ∧ 0 ≤ index ∧ index ≤ 511 := by
  rw [Session.terminate, Safe, safeFrom_append]
  exact and_congr_right fun _ => and_iff_left trivial

theorem printf_safe (label : List Char) :
    Safe (session.printf label).trace ↔ Safe session.trace ∧
      cString session.data.bytes = some (untilNul (lastReceived [] session.trace)) := by
  rw [Session.printf, Safe, safeFrom_append]
  exact and_congr_right fun _ => and_iff_left trivial

theorem lastReceived_read (result : ReadResult) :
    lastReceived [] (session.read result).trace = result.bytes := by
  rw [Session.read, lastReceived_append]
  exact lastReceived_wrote _ _

theorem lastReceived_terminate (index : ℤ) :
    lastReceived [] (session.terminate index).trace = lastReceived [] session.trace := by
  rw [Session.terminate, lastReceived_append]
  rfl

end Operations

section Contents

theorem cString_append_nul (bytes rest : List Byte) :
    cString (bytes ++ 0 :: rest) = some (untilNul bytes) := by
  have text : untilNul (bytes ++ 0 :: rest) = untilNul bytes := by
    induction bytes with
    | nil => rfl
    | cons byte bytes ih =>
        rw [untilNul, untilNul, List.cons_append, List.takeWhile_cons, List.takeWhile_cons]
        split
        · exact congrArg (byte :: ·) ih
        · rfl
  rw [cString, if_pos (List.mem_append_right bytes List.mem_cons_self), text]

theorem place_bytes (data : Data) {front : List Byte} (fits : front.length ≤ 512) :
    (data.place front).bytes = front ++ data.bytes.drop front.length := by
  have length := data.length_eq
  refine List.take_of_length_le ?_
  rw [List.length_append, List.length_drop]
  omega

theorem set_bytes (data : Data) (index : ℕ) (byte : Byte) :
    (data.set index byte).bytes = data.bytes.set index byte := by
  simp [Data.set]

/-- The terminator goes right behind the message. -/
theorem place_set_bytes (data : Data) (message : Message) :
    ((data.place message.bytes).set message.bytes.length 0).bytes =
      message.bytes ++ 0 :: data.bytes.drop (message.bytes.length + 1) := by
  have fits := message.fits
  have length := data.length_eq
  have rest : data.bytes.drop message.bytes.length = _ :: data.bytes.drop (_ + 1) :=
    List.drop_eq_getElem_cons (by omega)
  rw [set_bytes, place_bytes data (by omega), List.set_append_right _ _ (Nat.le_refl _), rest,
    Nat.sub_self, List.set_cons_zero]

/-- What `%s` would print now is the last message. -/
def Shows (session : Session) : Prop :=
  cString session.data.bytes = some (untilNul (lastReceived [] session.trace))

theorem shows_terminated (session : Session) (message : Message) :
    Shows ((session.read (.received message)).terminate message.bytes.length) := by
  rw [Shows, lastReceived_terminate, lastReceived_read]
  exact (congrArg cString (place_set_bytes session.data message)).trans
    (cString_append_nul message.bytes _)

/-- In the zeroed array a message needs no terminator. -/
theorem shows_first (message : Message) : Shows (Session.start.read (.received message)) := by
  have fits := message.fits
  rw [Shows, lastReceived_read]
  have contents : (Session.start.read (.received message)).data.bytes =
      message.bytes ++ 0 :: List.replicate (511 - message.bytes.length) 0 := by
    have left : 512 - message.bytes.length = 511 - message.bytes.length + 1 := by omega
    have zeros : Data.zero.bytes.drop message.bytes.length =
        0 :: List.replicate (511 - message.bytes.length) 0 := by
      rw [Data.zero, List.drop_replicate, left, List.replicate_succ]
    exact (place_bytes Data.zero (fits.trans (by decide))).trans
      (congrArg (message.bytes ++ ·) zeros)
  rw [contents]
  exact cString_append_nul message.bytes _

end Contents

section Runs

/-- The first result that is not positive is a failure. -/
def EndsInFailure (results : List ReadResult) : Prop :=
  results.find? (fun result => decide (result.numBytes ≤ 0)) = some .failed

theorem endsInFailure_nil : ¬ EndsInFailure [] := nofun

theorem endsInFailure_failed (rest : List ReadResult) : EndsInFailure (.failed :: rest) := rfl

theorem endsInFailure_received (message : Message) (rest : List ReadResult) :
    EndsInFailure (.received message :: rest) ↔
      0 < message.bytes.length ∧ EndsInFailure rest := by
  rcases Nat.eq_zero_or_pos message.bytes.length with empty | positive
  · simp [EndsInFailure, ReadResult.numBytes, empty]
  · have continues : decide ((ReadResult.received message).numBytes ≤ 0) = false :=
      decide_eq_false (Int.not_le.mpr (Int.natCast_pos.mpr positive))
    rw [EndsInFailure, List.find?_cons_of_neg (by simp [continues])]
    exact (and_iff_right positive).symm

/-- A turn of either program up to the terminator. -/
theorem turn_safe (session : Session) (message : Message) (safe : Safe session.trace) :
    Safe ((session.read (.received message)).terminate message.bytes.length).trace := by
  have fits := message.fits
  rw [terminate_safe, read_safe]
  exact ⟨safe, by omega, by omega⟩

theorem failed_numBytes : ¬ 0 < ReadResult.failed.numBytes := by decide

/-- The terminator of a failed `read` is written to index `-1`. -/
theorem turn_unsafe (session : Session) :
    ¬ Safe ((session.read .failed).terminate ReadResult.failed.numBytes).trace := by
  rw [terminate_safe]
  intro safe
  exact absurd safe.2.1 (by decide)

section Loop

/-- The loop of either program: `send` stands before the `read`, `display` behind
the terminator. -/
def messageLoop (send display : Session → Session) :
    List ReadResult → ℤ → Session → Session
  | [], numBytes, session => if numBytes > 0 then send session else session
  | result :: rest, numBytes, session =>
      if numBytes > 0 then
        messageLoop send display rest result.numBytes
          (display (((send session).read result).terminate result.numBytes))
      else session

variable {send display : Session → Session}

theorem messageLoop_of_ended (results : List ReadResult) {numBytes : ℤ} (ended : ¬ 0 < numBytes)
    (session : Session) : messageLoop send display results numBytes session = session := by
  cases results with
  | nil => exact if_neg ended
  | cons result rest => exact if_neg ended

/-- `Ready` is what a program needs of the array when it sends. -/
theorem messageLoop_safe_iff (Ready : Session → Prop)
    (sends : ∀ session, Safe session.trace → Ready session → Safe (send session).trace)
    (displays : ∀ session, Safe session.trace → Shows session →
      Safe (display session).trace ∧ Ready (display session))
    (displayed : ∀ session, Safe (display session).trace → Safe session.trace)
    (results : List ReadResult) {numBytes : ℤ} {session : Session} (safe : Safe session.trace)
    (ready : 0 < numBytes → Ready session) :
    Safe (messageLoop send display results numBytes session).trace ↔
      (0 < numBytes → ¬ EndsInFailure results) := by
  induction results generalizing numBytes session with
  | nil =>
      refine iff_of_true ?_ fun _ => endsInFailure_nil
      rw [messageLoop]
      split
      · next positive => exact sends session safe (ready positive)
      · exact safe
  | cons result rest ih =>
      rw [messageLoop]
      split
      · next positive =>
          have sent := sends session safe (ready positive)
          cases result with
          | failed =>
              refine iff_of_false ?_ fun meets => meets positive (endsInFailure_failed rest)
              rw [messageLoop_of_ended rest failed_numBytes]
              exact fun again => turn_unsafe _ (displayed _ again)
          | received message =>
              rw [endsInFailure_received, imp_iff_right positive, not_and, ← Int.natCast_pos]
              obtain ⟨shown, readyNext⟩ :=
                displays _ (turn_safe _ message sent) (shows_terminated _ message)
              exact ih shown fun _ => readyNext
      · next ended => exact iff_of_true safe fun positive => absurd positive ended

end Loop

def reply (session : Session) : Session :=
  ((session.printf fromClient).sprintf serverReply).write serverReply.length

def greet (session : Session) : Session :=
  (session.sprintf clientGreeting).write clientGreeting.length

theorem serverLoop_eq_messageLoop (results : List ReadResult) (numBytes : ℤ)
    (session : Session) :
    serverLoop results numBytes session = messageLoop reply id results numBytes session := by
  induction results generalizing numBytes session with
  | nil => rfl
  | cons result rest ih =>
      rw [serverLoop, messageLoop, ← ih]
      rfl

theorem clientLoop_eq_messageLoop (results : List ReadResult) (numBytes : ℤ)
    (session : Session) :
    clientLoop results numBytes session =
      messageLoop greet (Session.printf · fromServer) results numBytes session := by
  induction results generalizing numBytes session with
  | nil => rfl
  | cons result rest ih =>
      rw [clientLoop, messageLoop, ← ih]
      rfl

/-- The server prints the array before it replies. -/
theorem serverLoop_safe_iff (results : List ReadResult) {numBytes : ℤ} {session : Session}
    (safe : Safe session.trace) (shows : 0 < numBytes → Shows session) :
    Safe (serverLoop results numBytes session).trace ↔
      (0 < numBytes → ¬ EndsInFailure results) := by
  rw [serverLoop_eq_messageLoop]
  refine messageLoop_safe_iff Shows ?_ (fun _ => And.intro) (fun _ => id) results safe shows
  intro session safe shows
  rw [reply, write_safe, sprintf_safe _ (by decide), printf_safe]
  exact ⟨safe, shows⟩

theorem clientLoop_safe_iff (results : List ReadResult) {numBytes : ℤ} {session : Session}
    (safe : Safe session.trace) :
    Safe (clientLoop results numBytes session).trace ↔
      (0 < numBytes → ¬ EndsInFailure results) := by
  rw [clientLoop_eq_messageLoop]
  refine messageLoop_safe_iff (fun _ => True) ?_ ?_ ?_ results safe fun _ => trivial
  · intro session safe _
    rw [greet, write_safe, sprintf_safe _ (by decide)]
    exact safe
  · intro session safe shows
    exact ⟨(printf_safe session fromServer).mpr ⟨safe, shows⟩, trivial⟩
  · intro session printed
    exact ((printf_safe session fromServer).mp printed).1

theorem start_safe : Safe Session.start.trace := trivial

/-- Both programs stay inside the message exactly when the `read` that ends the
loop does not fail. A failure of the server's first `read` does no harm, since
nothing is stored after it. -/
theorem client_server_safe_iff (results : List ReadResult) :
    (Safe (client results).trace ↔ ¬ EndsInFailure results) ∧
    (Safe (server results).trace ↔
      ∀ first rest, results = first :: rest → 0 < first.numBytes → ¬ EndsInFailure rest) := by
  constructor
  · exact (clientLoop_safe_iff results start_safe).trans (imp_iff_right (by decide))
  · cases results with
    | nil => exact iff_of_true start_safe nofun
    | cons first rest =>
        have shows : 0 < first.numBytes → Shows (Session.start.read first) := by
          intro positive
          cases first with
          | failed => exact absurd positive failed_numBytes
          | received message => exact shows_first message
        refine (serverLoop_safe_iff rest ((read_safe _ first).mpr start_safe) shows).trans ?_
        constructor
        · intro meets first' rest' same
          cases same
          exact meets
        · intro meets
          exact meets first rest rfl

/-- A client whose first `read` fails writes to index `-1` and prints its own
greeting; a server fails so from its second `read` on. -/
theorem failed_read_unsafe :
    (¬ Safe (client [.failed]).trace ∧ .wrote (-1) ∈ (client [.failed]).trace ∧
      .printed fromServer (some clientGreeting) ∈ (client [.failed]).trace) ∧
    ¬ Safe (server [.received { bytes := [72, 105], fits := by decide }, .failed]).trace := by
  refine ⟨⟨?_, ?_, ?_⟩, ?_⟩
  · rw [client, clientLoop_safe_iff [.failed] start_safe]
    exact fun meets => meets (by decide) (endsInFailure_failed [])
  · decide +kernel
  · decide +kernel
  · rw [server, serverLoop_safe_iff [.failed] ((read_safe _ _).mpr start_safe)
      fun _ => shows_first _]
    exact fun meets => meets (by decide) (endsInFailure_failed [])

end Runs

end Ence360.Signals.Socket
