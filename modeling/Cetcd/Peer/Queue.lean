import Mathlib.Algebra.Group.Nat.Defs
import Mathlib.Data.List.Basic

/-!
# The outgoing channel of a peer

`peer_tx_`: the queue of frames, the connection and the callbacks. The outcomes of calls into the
event loop, TLS and HTTP/2 are arguments, one `Calls` for each pass of `peer_tx_drain_`. The counter
`depth` goes up when a frame is queued and nothing takes it down. The model ends at shutdown.
-/

namespace Cetcd.Peer

open List

abbrev Frame := List UInt8

def sendqMax : Nat := 256

inductive TxState
  | idle
  | connecting
  | handshake
  | connected
  | closing
  deriving DecidableEq

/-- `peer_tx_` without the clocks; `taken` are the frames taken for writing, oldest first. -/
structure PeerTx where
  queue : List Frame := []
  writing : Option Frame := none
  depth : Nat := 0
  state : TxState := .idle
  tcpInit : Bool := false
  writeInflight : Bool := false
  tls : Bool := false
  tlsReady : Bool := false
  h2 : Bool := false
  h2Out : Bool := false
  taken : List Frame := []
  deriving DecidableEq

/-! ## The calls -/

/-- How the calls of `peer_tx_connect_` turn out. -/
structure Dial where
  tcpInit : Bool := true
  getPeer : Bool := true
  hostAddr : Bool := true
  tcpConnect : Bool := true
  deriving DecidableEq

/-- How the calls of one pass of `peer_tx_drain_` turn out; `none` is a failure. -/
structure Calls where
  submit : Bool := true
  sendPending : Option Frame := some []
  tlsWrite : Bool := true
  takePending : Option Frame := some []
  malloc : Bool := true
  uvWrite : Bool := true
  deriving DecidableEq

/-- A round of the TLS handshake; `hs` is `none` for an error, otherwise whether it is done. -/
structure Handshake where
  flush : Bool := true
  hs : Option Bool := some true
  identityOk : Bool := true
  alpnH2 : Bool := false
  session : Bool := true
  deriving DecidableEq

/-! ## The functions -/

def close (tx : PeerTx) : PeerTx :=
  if tx.state = .closing ∨ tx.tcpInit = false then { tx with state := .idle }
  else { tx with state := .closing }

def connect (d : Dial) (tx : PeerTx) : PeerTx :=
  if tx.state ≠ .idle then tx
  else if tx.tcpInit = false ∧ d.tcpInit = false then tx
  else
    let tx := { tx with tcpInit := true }
    if d.getPeer = false then tx
    else if d.hostAddr = false then tx
    else if d.tcpConnect then { tx with state := .connecting }
    else tx

/-- The bytes go through TLS, for `peer_tx_drain_` and `peer_tx_emit_plain_`. The flag says that
nothing was to be written and the queue is drained again. -/
def emitTls (c : Calls) (tx : PeerTx) : PeerTx × Bool :=
  if c.tlsWrite = false then (close { tx with writeInflight := false }, false)
  else
    match c.takePending with
    | none => (close { tx with writeInflight := false }, false)
    | some [] => ({ tx with writeInflight := false }, true)
    | some (b :: cipher) =>
      if c.malloc = false then (close { tx with writeInflight := false }, false)
      else if c.uvWrite then ({ tx with writing := some (b :: cipher) }, false)
      else (close { tx with writeInflight := false, writing := none }, false)

def emitPlain (c : Calls) (tx : PeerTx) (data : Frame) : PeerTx × Bool :=
  let tx := { tx with writeInflight := true }
  if tx.tls then emitTls c tx
  else if c.malloc = false then (close { tx with writeInflight := false }, false)
  else if c.uvWrite then ({ tx with writing := some data }, false)
  else (close { tx with writeInflight := false, writing := none }, false)

def h2Emit (c : Calls) (tx : PeerTx) : PeerTx × Bool :=
  if tx.h2 = false then (tx, false)
  else
    match c.sendPending with
    | none => (close tx, false)
    | some [] => (tx, false)
    | some (b :: bs) => emitPlain c tx (b :: bs)

/-- One pass of `peer_tx_drain_`. -/
def drainPass (c : Calls) (tx : PeerTx) : PeerTx × Bool :=
  if tx.writeInflight ∨ tx.state ≠ .connected then (tx, false)
  else if tx.h2Out then
    match tx.queue with
    | [] => h2Emit c tx
    | f :: fs =>
      let tx := { tx with queue := fs, taken := tx.taken ++ [f] }
      if f.length < 4 ∨ c.submit = false then (close tx, false)
      else h2Emit c tx
  else
    match tx.queue with
    | [] => (tx, false)
    | f :: fs =>
      let tx := { tx with queue := fs, taken := tx.taken ++ [f], writeInflight := true }
      if tx.tls then emitTls c { tx with writing := none }
      else if c.uvWrite then ({ tx with writing := some f }, false)
      else (close { tx with writeInflight := false, writing := none }, false)

/-- `peer_tx_drain_`, with the calls of each pass. -/
def drain (c : Calls) : List Calls → PeerTx → PeerTx
  | [], tx => (drainPass c tx).1
  | c' :: cs, tx =>
    if (drainPass c tx).2 then drain c' cs (drainPass c tx).1 else (drainPass c tx).1

def maybeStartH2 (h : Handshake) (tx : PeerTx) : PeerTx :=
  if tx.h2 ∨ tx.tls = false then tx
  else if h.alpnH2 = false then tx
  else if h.session then { tx with h2 := true, h2Out := true }
  else close tx

/-- A round of the handshake; the flag says that the channel was drained. -/
def shake (h : Handshake) (c : Calls) (cs : List Calls) (tx : PeerTx) : PeerTx × Bool :=
  if h.flush = false ∨ h.hs = none then (close tx, false)
  else if h.hs = some false then (tx, false)
  else if h.identityOk = false then (close tx, false)
  else
    let tx := maybeStartH2 h { tx with tlsReady := true, state := .connected }
    if tx.state = .connected then (drain c cs tx, true) else (tx, false)

/-- The frame of a message: its length in four bytes, big end first, and the message. -/
def frame (data : List UInt8) : Frame :=
  UInt8.ofNat (data.length / 2 ^ 24) :: UInt8.ofNat (data.length / 2 ^ 16) ::
    UInt8.ofNat (data.length / 2 ^ 8) :: UInt8.ofNat data.length :: data

/-- The condition under which `peer_send_cb_` counts a drop. -/
def drops (tx : PeerTx) : Prop := sendqMax ≤ tx.depth
  deriving Decidable

def peerSend (tx : PeerTx) (data : List UInt8) (malloc : Bool) (d : Dial) (c : Calls)
    (cs : List Calls) : PeerTx :=
  if data = [] then tx
  else if drops tx then tx
  else if malloc = false then tx
  else
    let tx := { tx with queue := tx.queue ++ [frame data], depth := tx.depth + 1 }
    if tx.state = .idle then connect d tx
    else if tx.state = .connected then drain c cs tx
    else tx

def onConnect (tx : PeerTx) (status keepalive tlsOut conn readStart : Bool) (h : Handshake) (c : Calls)
    (cs : List Calls) : PeerTx :=
  if status = false then close tx
  else if keepalive = false then close tx
  else if tlsOut then
    if conn = false then close { tx with tls := false }
    else if readStart = false then close { tx with tls := true }
    else (shake h c cs { tx with tls := true, state := .handshake }).1
  else drain c cs { tx with state := .connected }

/-- `on_peer_tx_read_` with bytes: `more` is whether these are read and fed without an error, `last`
and `lasts` are the calls of the final `peer_tx_h2_emit_`. -/
def onRead (tx : PeerTx) (feed : Bool) (h : Handshake) (c : Calls) (cs : List Calls) (more : Bool)
    (last next : Calls) (lasts : List Calls) : PeerTx :=
  if tx.tls = false then tx
  else if feed = false then close tx
  else
    let shaken := if tx.tlsReady then (tx, true) else shake h c cs tx
    if shaken.2 = false then shaken.1
    else if more = false then close shaken.1
    else if shaken.1.h2 ∧ shaken.1.writeInflight = false then
      if (h2Emit last shaken.1).2 then drain next lasts (h2Emit last shaken.1).1
      else (h2Emit last shaken.1).1
    else shaken.1

def onWrite (tx : PeerTx) (status : Bool) (c : Calls) (cs : List Calls) : PeerTx :=
  let tx := { tx with writing := none, writeInflight := false }
  if status = false then close tx else drain c cs tx

def onClose (tx : PeerTx) (d : Dial) : PeerTx :=
  let tx := { tx with tls := false, tlsReady := false, h2 := false, h2Out := false, state := .idle,
                      tcpInit := false }
  if tx.queue = [] then tx else connect d tx

/-! ## Runs -/

inductive Event
  | send (data : List UInt8) (malloc : Bool) (d : Dial) (c : Calls) (cs : List Calls)
  | connect (status keepalive tlsOut conn readStart : Bool) (h : Handshake) (c : Calls)
      (cs : List Calls)
  | read (feed : Bool) (h : Handshake) (c : Calls) (cs : List Calls) (more : Bool)
      (last next : Calls) (lasts : List Calls)
  | lost
  | write (status : Bool) (c : Calls) (cs : List Calls)
  | close (d : Dial)
  deriving DecidableEq

/-- A read error and a stale connection in `peer_io_timeout_tick_` are both `lost`. -/
def step (tx : PeerTx) : Event → PeerTx
  | .send data malloc d c cs => peerSend tx data malloc d c cs
  | .connect status keepalive tlsOut conn readStart h c cs =>
    onConnect tx status keepalive tlsOut conn readStart h c cs
  | .read feed h c cs more last next lasts => onRead tx feed h c cs more last next lasts
  | .lost => Peer.close tx
  | .write status c cs => onWrite tx status c cs
  | .close d => onClose tx d

/-- When the event loop calls back: connecting, bytes while it is up, a started write. -/
def Enabled (tx : PeerTx) : Event → Prop
  | .send .. => True
  | .connect status .. => status = true → tx.state = .connecting
  | .read .. => tx.state = .handshake ∨ tx.state = .connected
  | .lost => tx.state = .handshake ∨ tx.state = .connected
  | .write .. => tx.writeInflight = true
  | .close .. => True

instance (tx : PeerTx) (e : Event) : Decidable (Enabled tx e) := by
  cases e <;> unfold Enabled <;> infer_instance

/-- The runs of a channel, with the state before each of their steps. -/
inductive Run : List (PeerTx × Event) → PeerTx → Prop
  | start : Run [] {}
  | next {steps : List (PeerTx × Event)} {tx : PeerTx} {e : Event} (h : Run steps tx)
      (he : Enabled tx e) : Run (steps ++ [(tx, e)]) (step tx e)

def Handshake.Done (h : Handshake) : Prop :=
  h.flush = true ∧ h.hs = some true ∧ h.identityOk = true ∧ (h.alpnH2 = true → h.session = true)

def Establishes (tx : PeerTx) : Event → Prop
  | .connect status keepalive tlsOut conn readStart h _ _ =>
    status = true ∧ keepalive = true ∧ (tlsOut = true → conn = true ∧ readStart = true ∧ h.Done)
  | .read feed h _ _ _ _ _ _ => tx.tls = true ∧ feed = true ∧ tx.tlsReady = false ∧ h.Done
  | _ => False

/-- The counter counts what waits, and a message is dropped only when the queue is full. -/
def Accounted (tx : PeerTx) : Prop :=
  tx.depth = tx.queue.length ∧ (drops tx → sendqMax ≤ tx.queue.length)

/-! ## The books: what is queued, counted and taken -/

section

variable {tx tx' tx'' : PeerTx} {c : Calls} {cs : List Calls} {fs : List Frame}

/-- The queue, its counter and its history. -/
def books (tx : PeerTx) : List Frame × Nat × List Frame := (tx.queue, tx.depth, tx.taken)

lemma books_close (tx : PeerTx) : books (close tx) = books tx := by
  unfold close
  split <;> rfl

lemma books_connect (d : Dial) (tx : PeerTx) : books (connect d tx) = books tx := by
  unfold connect
  split_ifs <;> rfl

lemma books_emitTls (c : Calls) (tx : PeerTx) : books (emitTls c tx).1 = books tx := by
  unfold emitTls
  split
  · exact books_close _
  split
  · exact books_close _
  · rfl
  split_ifs
  · exact books_close _
  · rfl
  · exact books_close _

lemma books_emitPlain (c : Calls) (tx : PeerTx) (data : Frame) :
    books (emitPlain c tx data).1 = books tx := by
  unfold emitPlain
  dsimp only
  split_ifs
  · exact books_emitTls c _
  · exact books_close _
  · rfl
  · exact books_close _

lemma books_h2Emit (c : Calls) (tx : PeerTx) : books (h2Emit c tx).1 = books tx := by
  unfold h2Emit
  split
  · rfl
  split
  · exact books_close _
  · rfl
  · exact books_emitPlain c tx _

lemma books_maybeStartH2 (h : Handshake) (tx : PeerTx) : books (maybeStartH2 h tx) = books tx := by
  unfold maybeStartH2
  split_ifs
  · rfl
  · rfl
  · rfl
  · exact books_close _

/-- Frames went from the head of the queue to the history; the counter stayed. -/
def Moved (tx tx' : PeerTx) : Prop :=
  ∃ fs, tx.queue = fs ++ tx'.queue ∧ tx'.taken = tx.taken ++ fs ∧ tx'.depth = tx.depth

lemma Moved.of_books (h : books tx' = books tx) : Moved tx tx' := by
  simp only [books, Prod.mk.injEq] at h
  obtain ⟨hqueue, hdepth, htaken⟩ := h
  exact ⟨[], by simp [hqueue], by simp [htaken], hdepth⟩

lemma Moved.trans (h : Moved tx tx') (h' : Moved tx' tx'') : Moved tx tx'' := by
  obtain ⟨fs, hq, ht, hd⟩ := h
  obtain ⟨gs, hq', ht', hd'⟩ := h'
  exact ⟨fs ++ gs, by simp [hq, hq'], by simp [ht, ht'], hd'.trans hd⟩

lemma Moved.pop {f : Frame} (hqueue : tx.queue = f :: fs)
    (h : books tx' = (fs, tx.depth, tx.taken ++ [f])) : Moved tx tx' := by
  simp only [books, Prod.mk.injEq] at h
  obtain ⟨hq, hd, ht⟩ := h
  exact ⟨[f], by simp [hqueue, hq], ht, hd⟩

lemma drainPass_pop {f : Frame} (hqueue : tx.queue = f :: fs) (hstate : tx.state = .connected)
    (hflight : tx.writeInflight = false) (c : Calls) :
    books (drainPass c tx).1 = (fs, tx.depth, tx.taken ++ [f]) := by
  unfold drainPass
  rw [if_neg (by simp [hstate, hflight])]
  split
  · rw [hqueue]
    dsimp only
    split
    · exact books_close _
    · exact books_h2Emit c _
  rw [hqueue]
  dsimp only
  split_ifs
  · exact books_emitTls c _
  · rfl
  · exact books_close _

lemma drainPass_moved (c : Calls) (tx : PeerTx) : Moved tx (drainPass c tx).1 := by
  by_cases hidle : tx.writeInflight ∨ tx.state ≠ .connected
  · refine .of_books ?_
    unfold drainPass
    rw [if_pos hidle]
  simp only [not_or, not_not, Bool.not_eq_true] at hidle
  cases hqueue : tx.queue with
  | nil =>
    refine .of_books ?_
    unfold drainPass
    rw [if_neg (by simp [hidle]), hqueue]
    split
    · exact books_h2Emit c tx
    · rfl
  | cons f fs => exact .pop hqueue (drainPass_pop hqueue hidle.2 hidle.1 c)

lemma drain_after_pass (c : Calls) (cs : List Calls) (tx : PeerTx) :
    Moved (drainPass c tx).1 (drain c cs tx) := by
  induction cs generalizing c tx with
  | nil => exact .of_books rfl
  | cons c' cs ih =>
    rw [drain]
    split
    · exact (drainPass_moved c' _).trans (ih c' _)
    · exact .of_books rfl

lemma drain_moved (c : Calls) (cs : List Calls) (tx : PeerTx) : Moved tx (drain c cs tx) :=
  (drainPass_moved c tx).trans (drain_after_pass c cs tx)

lemma Moved.taken_ne_nil (h : Moved tx tx') (htaken : tx.taken ≠ []) : tx'.taken ≠ [] := by
  obtain ⟨fs, _, ht, _⟩ := h
  simp [ht, htaken]

lemma drain_takes (hqueue : tx.queue ≠ []) (hstate : tx.state = .connected)
    (hflight : tx.writeInflight = false) (c : Calls) (cs : List Calls) :
    (drain c cs tx).taken ≠ [] := by
  cases hq : tx.queue with
  | nil => exact absurd hq hqueue
  | cons f fs =>
    have hpop := drainPass_pop hq hstate hflight c
    simp only [books, Prod.mk.injEq] at hpop
    exact (drain_after_pass c cs tx).taken_ne_nil (by simp [hpop])

lemma shake_moved (h : Handshake) (c : Calls) (cs : List Calls) (tx : PeerTx) :
    Moved tx (shake h c cs tx).1 := by
  unfold shake
  dsimp only
  split_ifs
  · exact .of_books (books_close _)
  · exact .of_books rfl
  · exact .of_books (books_close _)
  · exact (Moved.of_books (books_maybeStartH2 h { tx with tlsReady := true, state := .connected })).trans
      (drain_moved c cs _)
  · exact .of_books (books_maybeStartH2 h { tx with tlsReady := true, state := .connected })

lemma onConnect_moved (tx : PeerTx) (status keepalive tlsOut conn readStart : Bool) (h : Handshake)
    (c : Calls) (cs : List Calls) :
    Moved tx (onConnect tx status keepalive tlsOut conn readStart h c cs) := by
  unfold onConnect
  split_ifs
  · exact .of_books (books_close _)
  · exact .of_books (books_close _)
  · exact .of_books (books_close { tx with tls := false })
  · exact .of_books (books_close { tx with tls := true })
  · exact shake_moved h c cs { tx with tls := true, state := .handshake }
  · exact drain_moved c cs { tx with state := .connected }

lemma onRead_moved (tx : PeerTx) (feed : Bool) (h : Handshake) (c : Calls) (cs : List Calls)
    (more : Bool) (last next : Calls) (lasts : List Calls) :
    Moved tx (onRead tx feed h c cs more last next lasts) := by
  have hshaken : Moved tx (if tx.tlsReady then (tx, true) else shake h c cs tx).1 := by
    split
    · exact .of_books rfl
    · exact shake_moved h c cs tx
  unfold onRead
  dsimp only
  generalize (if tx.tlsReady then (tx, true) else shake h c cs tx) = shaken at hshaken ⊢
  have hemit := Moved.of_books (books_h2Emit last shaken.1)
  split_ifs
  · exact .of_books rfl
  · exact .of_books (books_close _)
  · exact hshaken
  · exact hshaken.trans (.of_books (books_close _))
  · exact hshaken.trans (hemit.trans (drain_moved next lasts _))
  · exact hshaken.trans hemit
  · exact hshaken

lemma onWrite_moved (tx : PeerTx) (status : Bool) (c : Calls) (cs : List Calls) :
    Moved tx (onWrite tx status c cs) := by
  unfold onWrite
  dsimp only
  split
  · exact .of_books (books_close { tx with writing := none, writeInflight := false })
  · exact drain_moved c cs { tx with writing := none, writeInflight := false }

lemma onClose_moved (tx : PeerTx) (d : Dial) : Moved tx (onClose tx d) := by
  unfold onClose
  dsimp only
  split
  · exact .of_books rfl
  · exact .of_books (books_connect d _)

end

/-! ## What the counter counts -/

section

variable {tx : PeerTx} {e : Event} {steps : List (PeerTx × Event)}

/-- The counter is the number of frames that wait or were ever taken. -/
structure Counts (tx : PeerTx) : Prop where
  depth : tx.depth = tx.queue.length + tx.taken.length
  le : tx.depth ≤ sendqMax

lemma Counts.moved {tx' : PeerTx} (h : Counts tx) (hmoved : Moved tx tx') : Counts tx' := by
  obtain ⟨fs, hq, ht, hd⟩ := hmoved
  refine ⟨?_, hd ▸ h.le⟩
  have hdepth := h.depth
  rw [hq, length_append] at hdepth
  rw [hd, ht, length_append]
  omega

lemma peerSend_cases (tx : PeerTx) (data : List UInt8) (malloc : Bool) (d : Dial) (c : Calls)
    (cs : List Calls) :
    peerSend tx data malloc d c cs = tx ∨
      ¬ drops tx ∧ Moved { tx with queue := tx.queue ++ [frame data], depth := tx.depth + 1 }
        (peerSend tx data malloc d c cs) := by
  unfold peerSend
  dsimp only
  split_ifs with hdata hdrops hmalloc hidle hup
  · exact .inl rfl
  · exact .inl rfl
  · exact .inl rfl
  · exact .inr ⟨hdrops, .of_books (books_connect d _)⟩
  · exact .inr ⟨hdrops, drain_moved c cs _⟩
  · exact .inr ⟨hdrops, .of_books rfl⟩

lemma step_cases (tx : PeerTx) (e : Event) : Moved tx (step tx e) ∨ ¬ drops tx ∧
      ∃ f, Moved { tx with queue := tx.queue ++ [f], depth := tx.depth + 1 } (step tx e) := by
  cases e with
  | send data malloc d c cs =>
    change Moved tx (peerSend tx data malloc d c cs) ∨ _
    obtain hsame | ⟨hroom, hmoved⟩ := peerSend_cases tx data malloc d c cs
    · exact .inl (.of_books (congrArg books hsame))
    · exact .inr ⟨hroom, frame data, hmoved⟩
  | connect status keepalive tlsOut conn readStart hand c cs =>
    exact .inl (onConnect_moved tx status keepalive tlsOut conn readStart hand c cs)
  | read feed hand c cs more last next lasts =>
    exact .inl (onRead_moved tx feed hand c cs more last next lasts)
  | lost => exact .inl (.of_books (books_close tx))
  | write status c cs => exact .inl (onWrite_moved tx status c cs)
  | close d => exact .inl (onClose_moved tx d)

lemma Counts.step (h : Counts tx) (e : Event) : Counts (step tx e) := by
  obtain hmoved | ⟨hroom, f, hmoved⟩ := step_cases tx e
  · exact h.moved hmoved
  refine Counts.moved ⟨?_, ?_⟩ hmoved
  · have hdepth := h.depth
    simp only [length_append, length_singleton]
    omega
  · exact Nat.lt_of_not_le hroom

lemma Run.counts (h : Run steps tx) : Counts tx := by
  induction h with
  | start => exact ⟨rfl, (Nat.zero_le _)⟩
  | next _ _ ih => exact ih.step _

lemma step_taken_ne_nil (h : tx.taken ≠ []) (e : Event) : (step tx e).taken ≠ [] := by
  obtain hmoved | ⟨_, _, hmoved⟩ := step_cases tx e <;> exact hmoved.taken_ne_nil h

lemma Counts.accounted_iff (h : Counts tx) : Accounted tx ↔ tx.taken = [] := by
  have hdepth := h.depth
  constructor
  · rintro ⟨heq, _⟩
    apply eq_nil_of_length_eq_zero
    omega
  intro htaken
  have heq : tx.depth = tx.queue.length := by simpa [htaken] using hdepth
  exact ⟨heq, fun hdrops => heq ▸ hdrops⟩

end

/-! ## The first connection -/

section

variable {tx : PeerTx} {e : Event} {steps : List (PeerTx × Event)} {h hand : Handshake}
  {cs : List Calls}

/-- No connection has been up yet; one being made has a frame to carry. -/
structure Fresh (tx : PeerTx) : Prop where
  taken : tx.taken = []
  state : tx.state ≠ .connected
  flight : tx.writeInflight = false
  h2 : tx.h2 = false
  queue : tx.state = .connecting ∨ tx.state = .handshake → tx.queue ≠ []

lemma Fresh.close (h : Fresh tx) : Fresh (close tx) := by
  unfold Peer.close
  split
  all_goals exact ⟨h.taken, by simp, h.flight, h.h2, by simp⟩

lemma Fresh.connect (h : Fresh tx) (d : Dial) (hqueue : tx.queue ≠ []) : Fresh (connect d tx) := by
  unfold Peer.connect
  dsimp only
  split_ifs
  · exact h
  · exact h
  · exact ⟨h.taken, h.state, h.flight, h.h2, h.queue⟩
  · exact ⟨h.taken, h.state, h.flight, h.h2, h.queue⟩
  · exact ⟨h.taken, by simp, h.flight, h.h2, fun _ => hqueue⟩
  · exact ⟨h.taken, h.state, h.flight, h.h2, h.queue⟩

lemma maybeStartH2_connected (hdone : h.Done) (tx : PeerTx) (hstate : tx.state = .connected) :
    (maybeStartH2 h tx).state = .connected := by
  unfold maybeStartH2
  split_ifs with h1 h2 h3
  · exact hstate
  · exact hstate
  · exact hstate
  · exact absurd (hdone.2.2.2 (by simpa using h2)) h3

lemma maybeStartH2_flight (h : Handshake) (tx : PeerTx) :
    (maybeStartH2 h tx).writeInflight = tx.writeInflight := by
  unfold maybeStartH2 Peer.close
  split_ifs <;> rfl

lemma shake_takes (hdone : h.Done) (hqueue : tx.queue ≠ []) (hflight : tx.writeInflight = false)
    (c : Calls) (cs : List Calls) : (shake h c cs tx).1.taken ≠ [] := by
  have hstate := maybeStartH2_connected hdone { tx with tlsReady := true, state := .connected } rfl
  have hbooks := books_maybeStartH2 h { tx with tlsReady := true, state := .connected }
  simp only [books, Prod.mk.injEq] at hbooks
  unfold shake
  rw [if_neg (by simp [hdone.1, hdone.2.1]), if_neg (by simp [hdone.2.1]),
    if_neg (by simp [hdone.2.2.1])]
  dsimp only
  rw [if_pos hstate]
  refine drain_takes ?_ hstate ((maybeStartH2_flight h _).trans hflight) c cs
  rw [hbooks.1]
  exact hqueue

lemma Fresh.shake (h : Fresh tx) (hfail : ¬ hand.Done) (htls : tx.tls) (c : Calls)
    (cs : List Calls) : Fresh (shake hand c cs tx).1 ∧ (Peer.shake hand c cs tx).2 = false := by
  unfold Peer.shake
  by_cases h1 : hand.flush = false ∨ hand.hs = none
  · rw [if_pos h1]
    exact ⟨h.close, rfl⟩
  rw [if_neg h1]
  by_cases h2 : hand.hs = some false
  · rw [if_pos h2]
    exact ⟨h, rfl⟩
  rw [if_neg h2]
  by_cases h3 : hand.identityOk = false
  · rw [if_pos h3]
    exact ⟨h.close, rfl⟩
  rw [if_neg h3]
  -- all that is left to fail is the HTTP/2 session
  have hhs : hand.hs = some true := by
    cases hval : hand.hs with
    | none => simp [hval] at h1
    | some b => cases b <;> simp_all
  have hsession : hand.alpnH2 ∧ hand.session = false := by
    by_contra hnot
    refine hfail ⟨by simpa using fun hf => h1 (.inl hf), hhs, by simpa using h3, fun halpn => ?_⟩
    by_contra hs
    exact hnot ⟨halpn, by simpa using hs⟩
  have hstart : maybeStartH2 hand { tx with tlsReady := true, state := .connected } =
      Peer.close { tx with tlsReady := true, state := .connected } := by
    simp [maybeStartH2, h.h2, htls, hsession]
  have hdown : (Peer.close { tx with tlsReady := true, state := .connected }).state ≠ .connected := by
    unfold Peer.close
    split <;> simp
  dsimp only
  rw [hstart, if_neg hdown]
  refine ⟨?_, rfl⟩
  unfold Peer.close
  split
  all_goals exact ⟨h.taken, by simp, h.flight, h.h2, by simp⟩

lemma Fresh.send (h : Fresh tx) (data : List UInt8) (malloc : Bool) (d : Dial) (c : Calls)
    (cs : List Calls) : Fresh (peerSend tx data malloc d c cs) := by
  have hqueued : Fresh { tx with queue := tx.queue ++ [frame data], depth := tx.depth + 1 } :=
    ⟨h.taken, h.state, h.flight, h.h2, fun _ => by simp⟩
  unfold peerSend
  dsimp only
  split_ifs with h1 h2 h3 h4 h5
  · exact h
  · exact h
  · exact h
  · exact hqueued.connect d (by simp)
  · exact absurd h5 h.state
  · exact hqueued

lemma Fresh.onConnect (h : Fresh tx) {status keepalive tlsOut conn readStart : Bool} {c : Calls}
    (he : Enabled tx (.connect status keepalive tlsOut conn readStart hand c cs))
    (hno : ¬ Establishes tx (.connect status keepalive tlsOut conn readStart hand c cs)) :
    Fresh (onConnect tx status keepalive tlsOut conn readStart hand c cs) := by
  unfold Peer.onConnect
  split_ifs with h1 h2 h3 h4 h5
  · exact h.close
  · exact h.close
  · exact Fresh.close ⟨h.taken, h.state, h.flight, h.h2, h.queue⟩
  · exact Fresh.close ⟨h.taken, h.state, h.flight, h.h2, h.queue⟩
  · have hfail : ¬ hand.Done := fun hdone =>
      hno ⟨by simpa using h1, by simpa using h2, fun _ => ⟨by simpa using h4, by simpa using h5, hdone⟩⟩
    have hqueue := h.queue (.inl (he (by simpa using h1)))
    have hshaking : Fresh { tx with tls := true, state := .handshake } :=
      ⟨h.taken, by simp, h.flight, h.h2, fun _ => hqueue⟩
    exact (hshaking.shake hfail rfl c cs).1
  · exact absurd ⟨by simpa using h1, by simpa using h2, fun htls => absurd htls h3⟩ hno

lemma Fresh.onRead (h : Fresh tx) {feed : Bool} {c : Calls} {more : Bool} {last next : Calls}
    {lasts : List Calls} (hno : ¬ Establishes tx (.read feed hand c cs more last next lasts)) :
    Fresh (onRead tx feed hand c cs more last next lasts) := by
  unfold Peer.onRead
  by_cases htls : tx.tls = false
  · rw [if_pos htls]
    exact h
  rw [if_neg htls]
  by_cases hfeed : feed = false
  · rw [if_pos hfeed]
    exact h.close
  rw [if_neg hfeed]
  by_cases hready : tx.tlsReady = true
  · simp only [if_pos hready, Bool.true_eq_false, if_false, h.h2, Bool.false_eq_true, false_and]
    split
    · exact h.close
    · exact h
  have hfail : ¬ hand.Done := fun hdone =>
    hno ⟨by simpa using htls, by simpa using hfeed, by simpa using hready, hdone⟩
  obtain ⟨hfresh, hflag⟩ := h.shake hfail (by simpa using htls) c cs
  simp only [if_neg hready, hflag, if_true]
  exact hfresh

lemma Fresh.step (h : Fresh tx) (he : Enabled tx e) (hno : ¬ Establishes tx e) :
    Fresh (step tx e) := by
  cases e with
  | send data malloc d c cs => exact h.send data malloc d c cs
  | connect status keepalive tlsOut conn readStart hand c cs => exact h.onConnect he hno
  | read feed hand c cs more last next lasts => exact h.onRead hno
  | lost => exact h.close
  | write status c cs =>
    -- no write was started
    have hflight : tx.writeInflight := he
    simp [h.flight] at hflight
  | close d =>
    change Fresh (onClose tx d)
    have hidle : Fresh { tx with tls := false, tlsReady := false, h2 := false, h2Out := false,
                                 state := .idle, tcpInit := false } :=
      ⟨h.taken, by simp, h.flight, rfl, by simp⟩
    unfold onClose
    dsimp only
    split
    · exact hidle
    rename_i hqueue
    exact hidle.connect d hqueue

lemma Fresh.established (h : Fresh tx) (he : Enabled tx e) (hup : Establishes tx e) :
    (Peer.step tx e).taken ≠ [] := by
  cases e with
  | connect status keepalive tlsOut conn readStart hand c cs =>
    obtain ⟨hstatus, hkeep, htls⟩ := hup
    -- a connection is made for a message, which is still in the queue
    have hqueue := h.queue (.inl (he hstatus))
    change (Peer.onConnect tx status keepalive tlsOut conn readStart hand c cs).taken ≠ []
    cases tlsOut with
    | false =>
      simp only [Peer.onConnect, hstatus, hkeep, Bool.true_eq_false, Bool.false_eq_true, if_false]
      exact @drain_takes { tx with state := .connected } hqueue rfl h.flight c cs
    | true =>
      obtain ⟨hconn, hread, hdone⟩ := htls rfl
      simp only [Peer.onConnect, hstatus, hkeep, hconn, hread, Bool.true_eq_false, if_false,
        if_true]
      exact @shake_takes { tx with tls := true, state := .handshake } hand hdone hqueue h.flight c cs
  | read feed hand c cs more last next lasts =>
    obtain ⟨htls, hfeed, hready, hdone⟩ := hup
    have hqueue : tx.queue ≠ [] := by
      refine h.queue ?_
      obtain hshake | hconnected := he
      · exact .inr hshake
      · exact absurd hconnected h.state
    have hshaken := shake_takes hdone hqueue h.flight c cs
    change (Peer.onRead tx feed hand c cs more last next lasts).taken ≠ []
    unfold Peer.onRead
    simp only [htls, hfeed, hready, Bool.true_eq_false, Bool.false_eq_true, if_false]
    generalize Peer.shake hand c cs tx = shaken at hshaken
    have hemit := Moved.of_books (books_h2Emit last shaken.1)
    -- what follows the handshake takes more out of the queue or nothing
    split_ifs
    · exact hshaken
    · exact (Moved.of_books (books_close _)).taken_ne_nil hshaken
    · exact (hemit.trans (drain_moved next lasts _)).taken_ne_nil hshaken
    · exact hemit.taken_ne_nil hshaken
    · exact hshaken
  | send | lost | write | close => exact hup.elim

lemma Run.fresh_or_taken (h : Run steps tx) : (Fresh tx ∧ ∀ p ∈ steps, ¬ Establishes p.1 p.2) ∨
      tx.taken ≠ [] ∧ ∃ p ∈ steps, Establishes p.1 p.2 := by
  induction h with
  | start => exact .inl ⟨⟨rfl, by simp, rfl, rfl, by simp⟩, by simp⟩
  | @next steps tx e _ he ih =>
    obtain ⟨hfresh, hno⟩ | ⟨htaken, p, hp, hup⟩ := ih
    · by_cases hup : Establishes tx e
      · exact .inr ⟨hfresh.established he hup, (tx, e), by simp, hup⟩
      refine .inl ⟨hfresh.step he hup, fun p hp => ?_⟩
      obtain hp | hp := mem_append.1 hp
      · exact hno p hp
      rw [mem_singleton.1 hp]
      exact hup
    · exact .inr ⟨step_taken_ne_nil htaken e, p, mem_append_left _ hp, hup⟩

end

/-- Over every run the books are right at its end exactly if it never had a connection. -/
theorem accounted_iff_never_connected {steps : List (PeerTx × Event)} {tx : PeerTx}
    (h : Run steps tx) : Accounted tx ↔ ∀ p ∈ steps, ¬ Establishes p.1 p.2 := by
  rw [h.counts.accounted_iff]
  obtain ⟨hfresh, hno⟩ | ⟨htaken, p, hp, hup⟩ := h.fresh_or_taken
  · exact iff_of_true hfresh.taken hno
  · exact iff_of_false htaken fun hno => hno p hp hup

/-! ## A channel that goes silent -/

def sendOk (data : List UInt8) : Event := .send data true {} {} []

def connectOk : Event := .connect true true false true true {} {} []

def writeOk : Event := .write true {} []

/-- The channel when it is up, everything is written and `n` messages went through. -/
def written (n : Nat) (sent : List Frame) : PeerTx :=
  { depth := n, state := .connected, tcpInit := true, taken := sent }

lemma step_sendOk {n : Nat} (hn : n < sendqMax) (sent : List Frame) (b : UInt8) :
    step (written n sent) (sendOk [b]) =
      { written (n + 1) (sent ++ [frame [b]]) with
        writing := some (frame [b]), writeInflight := true } := by
  have hroom : ¬ drops (written n sent) := Nat.not_le.2 hn
  simp only [written] at hroom ⊢
  simp [step, sendOk, peerSend, hroom, drain, drainPass]

lemma exists_run_written (n : Nat) (hn : n < sendqMax) :
    ∃ steps sent, Run steps (written (n + 1) sent) := by
  induction n with
  | zero =>
    have hsend : Run ([] ++ [(({} : PeerTx), sendOk [0])]) (step {} (sendOk [0])) :=
      .next .start (by decide)
    have hup := Run.next (e := connectOk) hsend (by decide)
    have hdone := Run.next (e := writeOk) hup (by decide)
    exact ⟨_, [frame [0]], hdone⟩
  | succ n ih =>
    obtain ⟨steps, sent, hrun⟩ := ih (by omega)
    have hsend := Run.next (e := sendOk [0]) hrun trivial
    rw [step_sendOk hn] at hsend
    have hdone := Run.next (e := writeOk) hsend rfl
    exact ⟨_, _, hdone⟩

/-- After `CETCD_PEER_SENDQ_MAX` messages, all written, the next one is dropped. -/
theorem drops_with_empty_queue : ∃ steps tx, Run steps tx ∧ tx.state = .connected ∧
    tx.writeInflight = false ∧ tx.queue = [] ∧ drops tx ∧ ¬ Accounted tx := by
  obtain ⟨steps, sent, hrun⟩ := exists_run_written 255 (by decide)
  refine ⟨steps, _, hrun, rfl, rfl, rfl, Nat.le_refl _, ?_⟩
  rintro ⟨hdepth, _⟩
  simp [written] at hdepth

/-- A message is written, the connection is lost and closed, and a second one is made for the next.
-/
theorem accounted_second_connection : ∃ steps tx, Run steps tx ∧
    steps.map Prod.snd =
      [sendOk [0], connectOk, writeOk, .lost, .close {}, sendOk [1], connectOk, writeOk] ∧
    (Accounted tx ↔ ∀ p ∈ steps, ¬ Establishes p.1 p.2) := by
  have hsend : Run ([] ++ [(({} : PeerTx), sendOk [0])]) (step {} (sendOk [0])) :=
    .next .start (by decide)
  have hup := Run.next (e := connectOk) hsend (by decide)
  have hdone := Run.next (e := writeOk) hup (by decide)
  have hlost := Run.next (e := .lost) hdone (by decide)
  have hclosed := Run.next (e := .close {}) hlost (by decide)
  have hagain := Run.next (e := sendOk [1]) hclosed (by decide)
  have hsecond := Run.next (e := connectOk) hagain (by decide)
  have hrun := Run.next (e := writeOk) hsecond (by decide)
  exact ⟨_, _, hrun, rfl, accounted_iff_never_connected hrun⟩

end Cetcd.Peer
