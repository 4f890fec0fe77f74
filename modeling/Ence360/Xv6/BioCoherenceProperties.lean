import Ence360.Xv6.BioDiskProperties

/-!
# The cache and the disk as one store of blocks

The contents of a block are what was last stored in it. A session that has the
block finds them in its buffer, and no buffer is taken from a block before its
contents are on the disk. This is so while the drives make no errors, no two devices
are on one drive, and no session lets go of a buffer that it has changed and not
marked.
-/

set_option autoImplicit false

namespace Ence360.Xv6.Bio

open Semantics

abbrev Blocks (Data : Type) := UInt32 → UInt32 → Data

def Blocks.set {Data : Type} (blocks : Blocks Data) (dev blockno : UInt32) (data : Data) :
    Blocks Data :=
  Function.update blocks dev (Function.update (blocks dev) blockno data)

theorem Blocks.set_self {Data : Type} (blocks : Blocks Data) (dev blockno : UInt32)
    (data : Data) : blocks.set dev blockno data dev blockno = data := by
  rw [Blocks.set, Function.update_self, Function.update_self]

theorem Blocks.set_of_ne {Data : Type} (blocks : Blocks Data) {dev blockno otherDev other : UInt32}
    (data : Data) (different : ¬ (otherDev = dev ∧ other = blockno)) :
    blocks.set dev blockno data otherDev other = blocks otherDev other := by
  rw [Blocks.set]
  rcases eq_or_ne otherDev dev with rfl | elsewhere
  · rw [Function.update_self, Function.update_of_ne fun same => different ⟨rfl, same⟩]
  · rw [Function.update_of_ne elsewhere]

section Invariant

/-- Devices each on a drive of its own, the first device not among them. -/
structure Drives (devices : UInt32 → Prop) : Prop where
  nonzero : ¬ devices 0
  apart : ∀ dev other, devices dev → devices other → drive dev = drive other → dev = other

theorem Drives.ne_zero {devices : UInt32 → Prop} {dev : UInt32} (drives : Drives devices)
    (device : devices dev) : dev ≠ 0 := by
  rintro rfl
  exact drives.nonzero device

variable {Data Session : Type} {state next : State Data Session} {blocks : Blocks Data}
  {devices : UInt32 → Prop}

structure Coherent (devices : UInt32 → Prop) (blocks : Blocks Data)
    (state : State Data Session) : Prop where
  cached : ∀ b, (state.buf b).valid = true →
    (state.buf b).data = blocks (state.buf b).dev (state.buf b).blockno
  onDisk : ∀ dev blockno, devices dev → state.disk (drive dev) blockno = blocks dev blockno ∨
    ∃ b, Cached state dev blockno b ∧ (state.buf b).valid = true ∧
      ((state.buf b).dirty = true ∨ ∃ i, state.phase i = .holding b true)

/-- Steps that leave the data in the buffers alone, and write no others to the disk. -/
theorem Coherent.frame (coherent : Coherent devices blocks state)
    (kept : ∀ b, SameBlock (next.buf b) (state.buf b))
    (disk : ∀ dev blockno, devices dev →
      next.disk (drive dev) blockno = state.disk (drive dev) blockno ∨
      next.disk (drive dev) blockno = blocks dev blockno)
    (holding : ∀ i b, state.phase i = .holding b true →
      next.phase i = .holding b true ∨ (state.buf b).dirty = true) :
    Coherent devices blocks next where
  cached b := by
    rw [(kept b).valid, (kept b).data, (kept b).dev, (kept b).blockno]
    exact coherent.cached b
  onDisk dev blockno device := by
    rcases disk dev blockno device with same | same
    · rw [same]
      refine (coherent.onDisk dev blockno device).imp_right ?_
      rintro ⟨b, ⟨sameDev, sameBlock⟩, valid, changed⟩
      refine ⟨b, ⟨(kept b).dev.trans sameDev, (kept b).blockno.trans sameBlock⟩,
        (kept b).valid.trans valid, ?_⟩
      rw [(kept b).dirty]
      rcases changed with dirty | ⟨i, held⟩
      · exact .inl dirty
      · rcases holding i b held with held | dirty
        · exact .inr ⟨i, held⟩
        · exact .inl dirty
    · exact .inl same

/-- The disk gets data of a buffer that has the contents of its block. -/
theorem Coherent.start [Fintype Session] (coherent : Coherent devices blocks state)
    (drives : Drives devices) (kept : Kept devices state) (queue : List Index)
    {dev : UInt32} (blockno : UInt32) (device : devices dev) :
    start state queue (drive dev) blockno = state.disk (drive dev) blockno ∨
      start state queue (drive dev) blockno = blocks dev blockno := by
  cases queue with
  | nil => exact .inl rfl
  | cons b rest =>
      rw [Bio.start]
      split
      · next dirty =>
          have valid := kept.queued.dirty b dirty
          by_cases same : drive (state.buf b).dev = drive dev ∧ (state.buf b).blockno = blockno
          · obtain ⟨sameDrive, rfl⟩ := same
            obtain rfl := drives.apart _ _ (kept.ranged b (.inl valid)).1 device sameDrive
            exact .inr (written_self.trans (coherent.cached b valid))
          · exact .inl (written_of_ne fun sameDrive sameBlock => same ⟨sameDrive, sameBlock⟩)
      · exact .inl rfl

end Invariant

section Steps

variable {Data Session : Type} [DecidableEq Session] [Fintype Session]
  {state next : State Data Session} {blocks : Blocks Data} {i : Session} {b : Index}
  {dev blockno : UInt32} {devices : UInt32 → Prop}

theorem coherent_recycle (coherent : Coherent devices blocks state) (counted : Counted state)
    (unused : Unused state b) (idle : state.phase i = .idle) :
    Coherent devices blocks (recycle state i b dev blockno) := by
  have elsewhere : ∀ c ≠ b, (recycle state i b dev blockno).buf c = state.buf c := by
    intro c other
    simp [recycle, other]
  constructor
  case cached =>
    intro c valid
    rcases eq_or_ne c b with rfl | other
    · simp [recycle] at valid
    · rw [elsewhere c other] at valid ⊢
      exact coherent.cached c valid
  case onDisk =>
    intro otherDev other device
    refine (coherent.onDisk otherDev other device).imp_right ?_
    rintro ⟨c, cached, valid, changed⟩
    have different : c ≠ b := by
      rintro rfl
      rcases changed with dirty | ⟨j, held⟩
      · rw [unused.2] at dirty
        cases dirty
      · exact counted.refcnt_ne_zero (i := j) (by rw [held]; rfl) unused.1
    refine ⟨c, ?_, ?_, ?_⟩
    · rw [Cached, elsewhere c different]
      exact cached
    · rw [elsewhere c different]
      exact valid
    · rw [elsewhere c different]
      refine changed.imp_right ?_
      rintro ⟨j, held⟩
      refine ⟨j, ?_⟩
      have another : j ≠ i := by
        rintro rfl
        rw [idle] at held
        cases held
      simp only [recycle, setPhase_phase, setBuf_phase, Function.update_of_ne another]
      exact held

omit [DecidableEq Session] [Fintype Session] in
theorem Coherent.panic (coherent : Coherent devices blocks state) (panic : Panic) :
    Coherent devices blocks (state.panic panic) :=
  ⟨coherent.cached, coherent.onDisk⟩

theorem coherent_iderw {havedisk1 : Bool} (coherent : Coherent devices blocks state)
    (drives : Drives devices) (kept : Kept devices state)
    (locks : (state.phase i).locks = some b) (awake : state.phase i ≠ .io b)
    (todo : (state.buf b).valid = true → (state.buf b).dirty = true) :
    Coherent devices blocks (iderw havedisk1 state i b) := by
  have owned := (kept.counted.lock i b).mpr locks
  have other := drives.ne_zero (kept.inRange locks).1
  have absent := kept.queued.not_mem kept.counted locks awake
  cases havedisk1 with
  | false =>
      rw [iderw_missing owned todo other]
      exact coherent.panic .noDisk1
  | true =>
      rw [iderw_eq owned todo (fun _ => rfl) (kept.inRange locks).2 absent]
      refine coherent.frame (fun c => .refl _) ?_ ?_
      · intro dev blockno device
        dsimp only
        split
        · exact coherent.start drives kept [b] blockno device
        · exact .inl rfl
      · intro j c held
        rcases eq_or_ne j i with rfl | other
        · rw [held] at locks
          cases locks
          exact .inr (todo (kept.queued.holding j b true held))
        · refine .inl ?_
          simp only [Function.update_of_ne other]
          exact held

omit [DecidableEq Session] in
/-- The answer of the disk is the contents of the block, and they are on the disk. -/
theorem Coherent.served (coherent : Coherent devices blocks state) (drives : Drives devices)
    (kept : Kept devices state) (head : state.idequeue.head? = some b) :
    state.disk (drive (state.buf b).dev) (state.buf b).blockno =
      blocks (state.buf b).dev (state.buf b).blockno ∧
    ((state.buf b).dirty = true →
      (state.buf b).data = blocks (state.buf b).dev (state.buf b).blockno) := by
  obtain ⟨counted, queued, ranged⟩ := kept
  have member := List.mem_of_mem_head? head
  have device := (ranged b (.inr (queued.used counted member))).1
  have clean : (state.buf b).dirty = true →
      (state.buf b).data = blocks (state.buf b).dev (state.buf b).blockno :=
    fun dirty => coherent.cached b (queued.dirty b dirty)
  refine ⟨?_, clean⟩
  by_cases dirty : (state.buf b).dirty = true
  · exact (queued.started b head dirty).trans (clean dirty)
  · rcases coherent.onDisk _ (state.buf b).blockno device with same | ⟨c, cached, valid, -⟩
    · exact same
    · have same : c = b :=
        (counted.unique b c (drives.ne_zero device) cached.1.symm cached.2.symm).symm
      rw [same] at valid
      exact absurd ((queued.queued b member).2 valid) dirty

omit [DecidableEq Session] in
theorem coherent_ideintr (coherent : Coherent devices blocks state) (drives : Drives devices)
    (kept : Kept devices state) {rest : List Index} (queue : state.idequeue = b :: rest) :
    Coherent devices blocks (ideintr state b rest true) := by
  obtain ⟨absent, -, -, inRange⟩ := kept.queued.rest kept.counted kept.ranged queue
  have head : state.idequeue.head? = some b := by
    rw [queue]
    rfl
  obtain ⟨answer, unchanged⟩ := coherent.served drives kept head
  rw [ideintr_eq true absent inRange]
  constructor
  case cached =>
    intro c valid
    rcases eq_or_ne c b with rfl | other
    · simp only [Function.update_self, answered]
      split
      · exact answer
      · next dirty => exact unchanged (by simpa using dirty)
    · simp only [Function.update_of_ne other] at valid ⊢
      exact coherent.cached c valid
  case onDisk =>
    intro dev blockno device
    rcases coherent.start drives kept rest blockno device with same | same
    · rcases coherent.onDisk dev blockno device with onDisk | ⟨c, cached, valid, changed⟩
      · exact .inl (same.trans onDisk)
      · rcases eq_or_ne c b with rfl | other
        · obtain ⟨rfl, rfl⟩ := cached
          exact .inl (same.trans answer)
        · refine .inr ⟨c, ?_, ?_, ?_⟩
          · simp only [Cached, Function.update_of_ne other]
            exact cached
          · simp only [Function.update_of_ne other]
            exact valid
          · simp only [Function.update_of_ne other]
            exact changed
    · exact .inl same

theorem coherent_store (coherent : Coherent devices blocks state) (drives : Drives devices)
    (kept : Kept devices state) {stored : Bool} {data : Data}
    (holding : state.phase i = .holding b stored) :
    Coherent devices (blocks.set (state.buf b).dev (state.buf b).blockno data)
      ((state.setBuf b { state.buf b with data }).setPhase i (.holding b true)) := by
  have valid := kept.queued.holding i b stored holding
  have nonzero := drives.ne_zero (kept.ranged b (.inl valid)).1
  constructor
  case cached =>
    intro c isValid
    rcases eq_or_ne c b with rfl | other
    · simp only [setPhase_buf, setBuf_buf, Function.update_self]
      rw [Blocks.set_self]
    · simp only [setPhase_buf, setBuf_buf, Function.update_of_ne other] at isValid ⊢
      rw [Blocks.set_of_ne]
      · exact coherent.cached c isValid
      · rintro ⟨sameDev, sameBlock⟩
        exact other (kept.counted.unique b c nonzero sameDev.symm sameBlock.symm).symm
  case onDisk =>
    intro otherDev otherBlock otherDevice
    by_cases same : otherDev = (state.buf b).dev ∧ otherBlock = (state.buf b).blockno
    · refine .inr ⟨b, ?_, ?_, .inr ⟨i, by simp⟩⟩
      · simp only [Cached, setPhase_buf, setBuf_buf, Function.update_self]
        exact ⟨same.1.symm, same.2.symm⟩
      · simp only [setPhase_buf, setBuf_buf, Function.update_self]
        exact valid
    · rw [Blocks.set_of_ne _ _ same]
      refine (coherent.onDisk otherDev otherBlock otherDevice).imp_right ?_
      rintro ⟨c, cached, isValid, changed⟩
      have other : c ≠ b := by
        rintro rfl
        exact same ⟨cached.1.symm, cached.2.symm⟩
      refine ⟨c, ?_, ?_, ?_⟩
      · simp only [Cached, setPhase_buf, setBuf_buf, Function.update_of_ne other]
        exact cached
      · simp only [setPhase_buf, setBuf_buf, Function.update_of_ne other]
        exact isValid
      · simp only [setPhase_buf, setBuf_buf, Function.update_of_ne other]
        refine changed.imp_right ?_
        rintro ⟨j, held⟩
        refine ⟨j, ?_⟩
        have another : j ≠ i := by
          rintro rfl
          rw [holding] at held
          cases held
          exact other rfl
        simp only [setPhase_phase, setBuf_phase, Function.update_of_ne another]
        exact held

omit [DecidableEq Session] [Fintype Session] in
/-- A buffer is marked for the disk. -/
theorem coherent_dirty (coherent : Coherent devices blocks state) :
    Coherent devices blocks (state.setBuf b { state.buf b with dirty := true }) := by
  have same : ∀ c, ((state.setBuf b { state.buf b with dirty := true }).buf c).valid =
        (state.buf c).valid ∧
      ((state.setBuf b { state.buf b with dirty := true }).buf c).dev = (state.buf c).dev ∧
      ((state.setBuf b { state.buf b with dirty := true }).buf c).blockno =
        (state.buf c).blockno ∧
      ((state.setBuf b { state.buf b with dirty := true }).buf c).data = (state.buf c).data ∧
      ((state.buf c).dirty = true →
        ((state.setBuf b { state.buf b with dirty := true }).buf c).dirty = true) := by
    intro c
    rcases eq_or_ne c b with rfl | other
    · simp
    · simp [other]
  constructor
  case cached =>
    intro c valid
    obtain ⟨sameValid, sameDev, sameBlock, sameData, -⟩ := same c
    rw [sameValid] at valid
    rw [sameDev, sameBlock, sameData]
    exact coherent.cached c valid
  case onDisk =>
    intro dev blockno device
    refine (coherent.onDisk dev blockno device).imp_right ?_
    rintro ⟨c, cached, valid, changed⟩
    obtain ⟨sameValid, sameDev, sameBlock, -, stays⟩ := same c
    refine ⟨c, ⟨sameDev.trans cached.1, sameBlock.trans cached.2⟩, sameValid.trans valid, ?_⟩
    exact changed.imp_left stays

end Steps

section Runs

variable {Data Session : Type} [DecidableEq Session] {state next : State Data Session}

/-- The contents of the blocks after a step. -/
def Blocks.after (blocks : Blocks Data) (state : State Data Session) :
    Action Data Session → Blocks Data
  | .store i data =>
      match state.phase i with
      | .holding b _ => blocks.set (state.buf b).dev (state.buf b).blockno data
      | _ => blocks
  | _ => blocks

/-- The contents of the blocks after a run. -/
def contents (disk : Blocks Data) (events : List (State Data Session × Action Data Session)) :
    Blocks Data :=
  events.foldl (fun blocks event => blocks.after event.1 event.2) disk

/-- A session moves on without the disk. -/
theorem Coherent.move {devices : UInt32 → Prop} {blocks : Blocks Data}
    (coherent : Coherent devices blocks state) {i : Session} {changed : Phase}
    (phase : next.phase = Function.update state.phase i changed)
    (settled : ∀ b, state.phase i = .holding b true → (state.buf b).dirty = true)
    (disk : next.disk = state.disk) (kept : ∀ b, SameBlock (next.buf b) (state.buf b)) :
    Coherent devices blocks next := by
  refine coherent.frame kept (fun dev blockno _ => .inl (by rw [disk])) ?_
  intro j b held
  rcases eq_or_ne j i with rfl | other
  · exact .inr (settled b held)
  · refine .inl ?_
    rw [phase, Function.update_of_ne other, held]

/-- Blocks are asked for on the devices and within their size, the drives make no
errors, and a session that has changed a buffer marks or writes it before it lets go. -/
def Careful (devices : UInt32 → Prop) (state : State Data Session) :
    Action Data Session → Prop
  | .bget _ dev blockno => devices dev ∧ blockno < fssize
  | .ideintr ready => ready = true
  | .releasesleep i => ∀ b, state.phase i ≠ .holding b true
  | _ => True

omit [DecidableEq Session] in
theorem Careful.asks {devices : UInt32 → Prop} {action : Action Data Session}
    (careful : Careful devices state action) : action.Asks devices := by
  cases action with
  | bget => exact careful
  | acquiresleep | bread | ideintr | wake | store | mark | bwrite | releasesleep | brelse =>
      trivial

variable [Fintype Session] {devices : UInt32 → Prop} {blocks : Blocks Data}

theorem coherent_bget (coherent : Coherent devices blocks state) (counted : Counted state)
    {i : Session} {dev blockno : UInt32} (idle : state.phase i = .idle) :
    Coherent devices blocks (bget state i dev blockno) := by
  obtain ⟨order, represents, all⟩ := counted.ring
  obtain ⟨b, cached, same⟩ | ⟨_, b, _, _, _, unused, _, same⟩ | ⟨_, _, same⟩ :=
    bget_cases represents all i dev blockno
  all_goals rw [same]
  · refine coherent.move rfl (by simp [idle]) rfl fun c => sameBlock_update ?_ c
    exact ⟨rfl, rfl, rfl, rfl, rfl⟩
  · exact coherent_recycle coherent counted unused idle
  · exact coherent.panic .noBuffers

theorem Coherent.step {havedisk1 : Bool} (coherent : Coherent devices blocks state)
    (drives : Drives devices) (kept : Kept devices state) {action : Action Data Session}
    (careful : Careful devices state action)
    (stepped : Transition havedisk1 state action next) :
    Coherent devices (blocks.after state action) next := by
  cases stepped with
  | bget idle => exact coherent_bget coherent kept.counted idle
  | acquiresleep waiting free =>
      refine coherent.move rfl (by simp [waiting]) rfl fun c => sameBlock_update ?_ c
      exact ⟨rfl, rfl, rfl, rfl, rfl⟩
  | @bread i b locked =>
      rw [bread]
      split
      · exact coherent.move rfl (by simp [locked]) rfl fun c => .refl _
      · next invalid =>
          refine coherent_iderw coherent drives kept ?_ (by simp [locked])
            fun valid => absurd valid invalid
          rw [locked]
          rfl
  | ideintr queue =>
      cases careful
      exact coherent_ideintr coherent drives kept queue
  | wake asleep valid clean =>
      exact coherent.move rfl (by simp [asleep]) rfl fun c => .refl _
  | @store i b stored data holding =>
      rw [Blocks.after, holding]
      exact coherent_store coherent drives kept holding
  | @mark i b stored holding =>
      refine (coherent_dirty coherent).move rfl ?_ rfl fun c => .refl _
      intro c held
      rw [setBuf_phase, holding] at held
      cases held
      simp
  | @bwrite i b stored holding =>
      have changed : Kept devices (state.setBuf b { state.buf b with dirty := true }) :=
        kept.change holding rfl rfl rfl rfl rfl
      rw [bwrite, if_neg (not_not.mpr (kept.counted.owned holding))]
      exact coherent_iderw (coherent_dirty coherent) drives changed
        (by simp [holding, Phase.locks]) (by simp [holding]) (by simp)
  | @releasesleep i b stored holding =>
      rw [releasesleep_eq kept.counted holding]
      refine coherent.move rfl (fun c held => absurd held (careful c)) rfl
        fun c => sameBlock_update ?_ c
      exact ⟨rfl, rfl, rfl, rfl, rfl⟩
  | brelse releasing =>
      obtain ⟨-, disk, -⟩ := brelse_rest state _ _
      refine coherent.move (brelse_phase _ _ _) (by simp [releasing]) disk fun c => ?_
      rw [brelse_buf]
      refine sameBlock_update ?_ c
      exact ⟨rfl, rfl, rfl, rfl, rfl⟩

/-- What the devices hold at the start. -/
def onDrives (disk : UInt32 → UInt32 → Data) : Blocks Data :=
  fun dev => disk (drive dev)

/-- Every session that has a block sees what was last stored in it, by whichever
session, and a block that no buffer has changed is so on the disk. -/
theorem cache_coherent {havedisk1 : Bool} {zero : Data} {links : Links Index}
    {disk : UInt32 → UInt32 → Data} {events : List (State Data Session × Action Data Session)}
    (drives : Drives devices)
    (run : (system havedisk1 zero).Run (initial zero links disk) events state)
    (careful : ∀ event ∈ events, Careful devices event.1 event.2) :
    (∀ i b stored, state.phase i = .holding b stored →
      (state.buf b).data =
        contents (onDrives disk) events (state.buf b).dev (state.buf b).blockno) ∧
    ∀ dev blockno, devices dev →
      state.disk (drive dev) blockno = contents (onDrives disk) events dev blockno ∨
      ∃ b, (state.buf b).dev = dev ∧ (state.buf b).blockno = blockno ∧
        ((state.buf b).dirty = true ∨ ∃ i, state.phase i = .holding b true) := by
  have invariant : Kept devices state ∧
      Coherent devices (contents (onDrives disk) events) state := by
    refine run.history (Careful devices)
      (fun events state => Kept devices state ∧
        Coherent devices (contents (onDrives disk) events) state) ?_ careful ?_
    · rintro events state action next ⟨kept, coherent⟩ careful stepped
      have transition := (transition_of_system_step stepped).2
      refine ⟨kept.step careful.asks transition, ?_⟩
      rw [contents, List.foldl_append]
      exact coherent.step drives kept careful transition
    · exact ⟨kept_initial devices zero links disk,
        fun b valid => by simp [initial, blank] at valid, fun dev blockno _ => .inl rfl⟩
  obtain ⟨kept, coherent⟩ := invariant
  constructor
  · intro i b stored holding
    exact coherent.cached b (kept.queued.holding i b stored holding)
  · intro dev blockno device
    refine (coherent.onDisk dev blockno device).imp_right ?_
    rintro ⟨b, cached, -, changed⟩
    exact ⟨b, cached.1, cached.2, changed⟩

theorem drives_one : Drives fun dev => dev = 1 where
  nonzero := by decide
  apart dev other := by
    rintro rfl rfl
    exact fun _ => rfl

/-- A session stores in a block and lets it go, and another one has it then. -/
theorem two_sessions : ∃ middle after state b,
    (system true 0).execute (initial 0 ⟨fun _ => none, fun _ => none⟩ fun _ _ => 7)
      [.bget false 1 2, .acquiresleep false, .bread false, .ideintr true, .wake false,
        .store false 9, .mark false, .bget true 1 2] = some middle ∧
    middle.phase false = .holding b false ∧
    (system true 0).step middle (.releasesleep false) = some after ∧
    (system true 0).execute after [.acquiresleep true, .bread true] = some state ∧
    state.phase true = .holding b false ∧ (state.buf b).data = 9 :=
  ⟨_, _, _, ⟨0, by decide⟩, rfl, rfl, rfl, rfl, rfl, rfl⟩

theorem cache_coherent_second_session :
    let disk : UInt32 → UInt32 → ℕ := fun _ _ => 7
    let start : State ℕ Bool := initial 0 ⟨fun _ => none, fun _ => none⟩ disk
    ∃ events state b, (system true 0).Run start events state ∧
      (∀ event ∈ events, Careful (fun dev => dev = 1) event.1 event.2) ∧
      state.phase true = .holding b false ∧ (state.buf b).data = 9 ∧
      contents (onDrives disk) events (state.buf b).dev (state.buf b).blockno = 9 := by
  intro disk start
  obtain ⟨middle, after, state, b, first, settled, released, second, holding, data⟩ :=
    two_sessions
  obtain ⟨events, labels, run⟩ := System.run_of_execute first
  obtain ⟨later, laterLabels, rest⟩ := System.run_of_execute second
  have small : (2 : UInt32) < fssize := by decide
  have before : ∀ action ∈ events.map Prod.snd, ∀ state,
      Careful (fun dev => dev = 1) state action := by
    rw [labels]
    simp [Careful, small]
  have behind : ∀ action ∈ later.map Prod.snd, ∀ state,
      Careful (fun dev => dev = 1) state action := by
    rw [laterLabels]
    simp [Careful]
  have careful : ∀ event ∈ events ++ ([(middle, .releasesleep false)] ++ later),
      Careful (fun dev => dev = 1) event.1 event.2 := by
    intro event member
    rcases List.mem_append.mp member with member | member
    · exact before _ (List.mem_map_of_mem member) _
    · rcases List.mem_append.mp member with member | member
      · rw [List.mem_singleton.mp member]
        intro c held
        rw [settled] at held
        cases held
      · exact behind _ (List.mem_map_of_mem member) _
  have whole := run.trans ((System.Run.single released).trans rest)
  have sees := (cache_coherent drives_one whole careful).1 _ _ _ holding
  exact ⟨_, state, b, whole, careful, holding, data, sees.symm.trans data⟩

end Runs

end Ence360.Xv6.Bio
