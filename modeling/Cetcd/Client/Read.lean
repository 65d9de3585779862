import Cetcd.Lib.Bytes
import Cetcd.Lib.Framing

/-!
# Requests over framed TCP

`on_client_read_`: reads are appended to the buffer of the connection, and complete requests are
handled one by one. Cutting the stream elsewhere changes one thing only: `client_buf_append_` counts
everything that waits against the limit of one request.
-/

namespace Cetcd.Client

open Lib List Option Framing

def maxTokenLen : Nat := 2048

/-- `client_max_bytes_` of the configured `max_request_bytes`. -/
def maxBytes (configured : Nat) : Nat := if configured = 0 then 1572864 else configured

/-! ## The parser -/

/-- What `cetcd_server_handle_rpc_ex` is given; an empty token is none. -/
structure Call where
  path : List UInt8
  token : Option (List UInt8)
  payload : List UInt8
  deriving DecidableEq

def tokenOf (bs : List UInt8) : Option (List UInt8) := if cString bs = [] then none else some (cString bs)

/-- From the length of the payload on; `cursor` bytes are in front of it. -/
def parsePayload (maxb : Nat) (path token : List UInt8) (cursor : Nat) :
    List UInt8 → Cut Call UInt8
  | p0 :: p1 :: p2 :: p3 :: rest =>
    let payloadLen := p0.toNat * 2 ^ 24 + p1.toNat * 2 ^ 16 + p2.toNat * 2 ^ 8 + p3.toNat
    if maxb < payloadLen ∨ maxb < cursor + 4 + payloadLen then .bad
    else if rest.length < payloadLen then .more
    else .item ⟨cString path, tokenOf token, rest.take payloadLen⟩ (rest.drop payloadLen)
  | _ => .more

def parseToken (maxb : Nat) (path : List UInt8) (cursor : Nat) : List UInt8 → Cut Call UInt8
  | t0 :: t1 :: rest =>
    let tlen := t0.toNat * 2 ^ 8 + t1.toNat
    if maxTokenLen < tlen then .bad
    else if rest.length < tlen + 4 then .more
    else parsePayload maxb path (rest.take tlen) (cursor + 2 + tlen) (rest.drop tlen)
  | _ => .more

/-- From the flags on; bit one says that a token follows. -/
def parseFlags (maxb : Nat) (path : List UInt8) (cursor : Nat) : List UInt8 → Cut Call UInt8
  | flags :: rest =>
    if flags.toNat / 2 % 2 = 1 then parseToken maxb path (cursor + 1) rest
    else parsePayload maxb path [] (cursor + 1) rest
  | [] => .more

def parse (maxb : Nat) : List UInt8 → Cut Call UInt8
  | b0 :: b1 :: rest =>
    let pathLen := b0.toNat * 2 ^ 8 + b1.toNat
    if rest.length < pathLen + 1 then .more
    else if 256 ≤ pathLen then .bad
    else parseFlags maxb (rest.take pathLen) (2 + pathLen) (rest.drop pathLen)
  | _ => .more

/-- The answer for a buffer, on the buffer with `q` behind it. -/
def behind (q : List UInt8) : Cut Call UInt8 → Cut Call UInt8
  | .more => .more
  | .bad => .bad
  | .item x rest => .item x (rest ++ q)

section

variable {maxb cursor : Nat} {path token b q : Bytes} {x : Call} {rest : Bytes}

lemma parsePayload_append (h : parsePayload maxb path token cursor b ≠ .more) :
    parsePayload maxb path token cursor (b ++ q) = behind q (parsePayload maxb path token cursor b) := by
  obtain _ | ⟨p0, _ | ⟨p1, _ | ⟨p2, _ | ⟨p3, rest⟩⟩⟩⟩ := b
  · exact absurd rfl h
  · exact absurd rfl h
  · exact absurd rfl h
  · exact absurd rfl h
  simp only [cons_append, parsePayload] at h ⊢
  generalize p0.toNat * 2 ^ 24 + p1.toNat * 2 ^ 16 + p2.toNat * 2 ^ 8 + p3.toNat = len at h ⊢
  by_cases hbig : maxb < len ∨ maxb < cursor + 4 + len
  · rw [if_pos hbig, if_pos hbig]
    rfl
  rw [if_neg hbig] at h ⊢
  rw [if_neg hbig]
  by_cases hshort : rest.length < len
  · exact absurd (if_pos hshort) h
  rw [if_neg hshort, if_neg (by rw [length_append]; omega), behind,
    take_append_of_le_length (by omega), drop_append_of_le_length (by omega)]

lemma parseToken_append (h : parseToken maxb path cursor b ≠ .more) :
    parseToken maxb path cursor (b ++ q) = behind q (parseToken maxb path cursor b) := by
  obtain _ | ⟨t0, _ | ⟨t1, rest⟩⟩ := b
  · exact absurd rfl h
  · exact absurd rfl h
  simp only [cons_append, parseToken] at h ⊢
  by_cases hlong : maxTokenLen < t0.toNat * 2 ^ 8 + t1.toNat
  · rw [if_pos hlong, if_pos hlong]
    rfl
  rw [if_neg hlong] at h ⊢
  rw [if_neg hlong]
  by_cases hshort : rest.length < t0.toNat * 2 ^ 8 + t1.toNat + 4
  · exact absurd (if_pos hshort) h
  rw [if_neg hshort] at h ⊢
  rw [if_neg (by rw [length_append]; omega), take_append_of_le_length (by omega),
    drop_append_of_le_length (by omega)]
  exact parsePayload_append h

lemma parseFlags_append (h : parseFlags maxb path cursor b ≠ .more) :
    parseFlags maxb path cursor (b ++ q) = behind q (parseFlags maxb path cursor b) := by
  cases b with
  | nil => exact absurd rfl h
  | cons flags rest =>
    simp only [cons_append, parseFlags] at h ⊢
    split at h
    · rename_i hflag
      rw [if_pos hflag, if_pos hflag]
      exact parseToken_append h
    rename_i hflag
    rw [if_neg hflag, if_neg hflag]
    exact parsePayload_append h

lemma parse_append (h : parse maxb b ≠ .more) : parse maxb (b ++ q) = behind q (parse maxb b) := by
  obtain _ | ⟨b0, _ | ⟨b1, rest⟩⟩ := b
  · exact absurd rfl h
  · exact absurd rfl h
  simp only [cons_append, parse] at h ⊢
  by_cases hshort : rest.length < b0.toNat * 2 ^ 8 + b1.toNat + 1
  · exact absurd (if_pos hshort) h
  rw [if_neg hshort] at h ⊢
  rw [if_neg (by rw [length_append]; omega)]
  by_cases hlong : 256 ≤ b0.toNat * 2 ^ 8 + b1.toNat
  · rw [if_pos hlong, if_pos hlong]
    rfl
  rw [if_neg hlong] at h ⊢
  rw [if_neg hlong, take_append_of_le_length (by omega), drop_append_of_le_length (by omega)]
  exact parseFlags_append h

lemma parsePayload_rest (h : parsePayload maxb path token cursor b = .item x rest) :
    rest.length < b.length := by
  obtain _ | ⟨p0, _ | ⟨p1, _ | ⟨p2, _ | ⟨p3, tail⟩⟩⟩⟩ := b
  · cases h
  · cases h
  · cases h
  · cases h
  simp only [parsePayload] at h
  split_ifs at h
  cases h
  simp only [length_drop, length_cons]
  omega

lemma parseFlags_rest (h : parseFlags maxb path cursor b = .item x rest) :
    rest.length < b.length := by
  cases b with
  | nil => cases h
  | cons flags tail =>
    simp only [parseFlags] at h
    split at h
    · obtain _ | ⟨t0, _ | ⟨t1, tail⟩⟩ := tail
      · cases h
      · cases h
      simp only [parseToken] at h
      split_ifs at h
      have hlt := parsePayload_rest h
      rw [length_drop] at hlt
      simp only [length_cons]
      omega
    have hlt := parsePayload_rest h
    rw [length_cons]
    omega

lemma parse_rest (h : parse maxb b = .item x rest) : rest.length < b.length := by
  obtain _ | ⟨b0, _ | ⟨b1, tail⟩⟩ := b
  · cases h
  · cases h
  simp only [parse] at h
  split_ifs at h
  have hlt := parseFlags_rest h
  rw [length_drop] at hlt
  simp only [length_cons]
  omega

end

def framing (maxb : Nat) : Framing Call UInt8 where
  parse := parse maxb
  parse_nil := rfl
  bad_append b q h := by
    rw [parse_append (by rw [h]; simp), h]
    rfl
  item_append b q x rest h := by
    rw [parse_append (by rw [h]; simp), h]
    rfl
  rest_lt b x rest h := parse_rest h

/-! ## Requests -/

structure Request where
  path : List UInt8
  flags : UInt8
  token : Option (List UInt8)
  payload : List UInt8
  deriving DecidableEq

namespace Request

/-- Strings without zero bytes that fit, and flags that say whether there is a token. -/
structure WellFormed (r : Request) : Prop where
  path : r.path.length < 256
  pathText : 0 ∉ r.path
  flags : (r.flags.toNat / 2 % 2 = 1) ↔ r.token.isSome
  token : ∀ t, r.token = some t → t ≠ [] ∧ t.length ≤ maxTokenLen ∧ 0 ∉ t
  payload : r.payload.length < 2 ^ 32

def encode (r : Request) : List UInt8 :=
  UInt8.ofNat (r.path.length / 2 ^ 8) :: UInt8.ofNat r.path.length :: (r.path ++ r.flags ::
    ((match r.token with
      | none => []
      | some t => UInt8.ofNat (t.length / 2 ^ 8) :: UInt8.ofNat t.length :: t) ++
    (UInt8.ofNat (r.payload.length / 2 ^ 24) :: UInt8.ofNat (r.payload.length / 2 ^ 16) ::
      UInt8.ofNat (r.payload.length / 2 ^ 8) :: UInt8.ofNat r.payload.length :: r.payload)))

def call (r : Request) : Call := ⟨r.path, r.token, r.payload⟩

end Request

open Request

section

variable {r : Request} {maxb : Nat} {n cursor : Nat}

lemma two_bytes (h : n < 2 ^ 16) :
    (UInt8.ofNat (n / 2 ^ 8)).toNat * 2 ^ 8 + (UInt8.ofNat n).toNat = n := by
  simp only [UInt8.toNat_ofNat']
  omega

lemma four_bytes (h : n < 2 ^ 32) :
    (UInt8.ofNat (n / 2 ^ 24)).toNat * 2 ^ 24 + (UInt8.ofNat (n / 2 ^ 16)).toNat * 2 ^ 16 +
      (UInt8.ofNat (n / 2 ^ 8)).toNat * 2 ^ 8 + (UInt8.ofNat n).toNat = n := by
  simp only [UInt8.toNat_ofNat']
  omega

lemma parsePayload_encode {path token payload q : Bytes} (hlen : payload.length < 2 ^ 32)
    (hmax : cursor + 4 + payload.length ≤ maxb) :
    parsePayload maxb path token cursor
        (UInt8.ofNat (payload.length / 2 ^ 24) :: UInt8.ofNat (payload.length / 2 ^ 16) ::
          UInt8.ofNat (payload.length / 2 ^ 8) :: UInt8.ofNat payload.length :: (payload ++ q)) =
      .item ⟨cString path, tokenOf token, payload⟩ q := by
  simp only [parsePayload, four_bytes hlen]
  rw [if_neg (by omega), if_neg (by rw [length_append]; omega), take_left, drop_left]

lemma parseToken_encode {path t tail : Bytes} (ht : t.length ≤ maxTokenLen)
    (htail : 4 ≤ tail.length) :
    parseToken maxb path cursor
        (UInt8.ofNat (t.length / 2 ^ 8) :: UInt8.ofNat t.length :: (t ++ tail)) =
      parsePayload maxb path t (cursor + 2 + t.length) tail := by
  have hsmall : t.length < 2 ^ 16 := ht.trans_lt (by decide)
  simp only [parseToken, two_bytes hsmall]
  rw [if_neg (by omega), if_neg (by rw [length_append]; omega), take_left, drop_left]

lemma Request.WellFormed.parse_encode (h : r.WellFormed) (hmax : r.encode.length ≤ maxb)
    (q : Bytes) : parse maxb (r.encode ++ q) = .item r.call q := by
  have htext := cString_eq_self_iff.mpr h.pathText
  have hflags := h.flags
  have htoken := h.token
  obtain ⟨path, flags, token, payload⟩ := r
  have hpath : path.length < 256 := h.path
  have hpayload : payload.length < 2 ^ 32 := h.payload
  simp only [encode, length_cons, length_append] at hmax
  simp only [encode, cons_append, append_assoc, parse, Request.call,
    two_bytes (hpath.trans (by decide))]
  rw [if_neg (by simp only [length_append, length_cons]; omega), if_neg (by omega),
    take_left, drop_left, parseFlags]
  cases token with
  | none =>
    rw [if_neg (by simpa using hflags)]
    simp only [length_nil, nil_append] at hmax ⊢
    rw [parsePayload_encode hpayload (by omega), htext]
    rfl
  | some t =>
    obtain ⟨hne, hlen, hzero⟩ := htoken t rfl
    rw [if_pos (by simpa using hflags)]
    simp only [length_cons, cons_append] at hmax ⊢
    rw [parseToken_encode hlen (by simp only [length_cons]; omega),
      parsePayload_encode hpayload (by omega), htext, tokenOf, cString_eq_self_iff.mpr hzero, if_neg hne]

lemma Request.encode_ne_nil (r : Request) : r.encode ≠ [] := by
  simp [encode]

lemma Request.WellFormed.encodes (h : r.WellFormed) (hmax : r.encode.length ≤ maxb) :
    (framing maxb).Encodes encode Request.call r :=
  ⟨h.parse_encode hmax, r.encode_ne_nil⟩

end

/-! ## The connection -/

/-- `proto`: not known yet, framed TCP, or HTTP/2. -/
inductive Proto
  | unknown
  | custom
  | http2
  deriving DecidableEq

/-- `client_ctx_` as far as framed requests go, with the calls made for it. -/
structure Conn where
  buf : List UInt8 := []
  proto : Proto := .unknown
  calls : List Call := []
  closed : Bool := false
  deriving DecidableEq

/-- The preface of HTTP/2: PRI * HTTP/2.0, SM and the line ends. -/
def preface : List UInt8 :=
  [0x50, 0x52, 0x49, 0x20, 0x2a, 0x20, 0x48, 0x54, 0x54, 0x50, 0x2f, 0x32, 0x2e, 0x30, 0x0d, 0x0a,
    0x0d, 0x0a, 0x53, 0x4d, 0x0d, 0x0a, 0x0d, 0x0a]

/-- `cetcd_h2_detect`: `unknown` if more bytes are needed. -/
def detect (data : List UInt8) : Proto :=
  if data = [] then .unknown
  else if data.take 24 ≠ preface.take (min data.length 24) then .custom
  else if data.length < 24 then .unknown
  else .http2

/-- `client_buf_append_`: `none` closes the connection. -/
def bufAppend (maxb : Nat) (buf src : List UInt8) : Option (List UInt8) :=
  if src = [] then some buf else if maxb < buf.length + src.length then none else some (buf ++ src)

/-- The pieces of one read: one, or for TLS as many as were decrypted. -/
def bufAppends (maxb : Nat) : List (List UInt8) → List UInt8 → Option (List UInt8)
  | [], buf => some buf
  | src :: srcs, buf => (bufAppend maxb buf src).bind (bufAppends maxb srcs)

def handleAll (maxb : Nat) (c : Conn) : Conn :=
  match (framing maxb).drain c.buf with
  | (calls, some buf) => { c with calls := c.calls ++ calls, buf := buf }
  | (calls, none) => { c with calls := c.calls ++ calls, closed := true }

/-- `on_client_read_` with bytes; nothing is read after `uv_close`. HTTP/2 is not followed here. -/
def onClientRead (maxb : Nat) (c : Conn) (srcs : List (List UInt8)) : Conn :=
  if c.closed then c
  else
    match bufAppends maxb srcs c.buf with
    | none => { c with closed := true }
    | some buf =>
      let c := { c with buf := buf }
      let c := if c.proto = .unknown then { c with proto := detect c.buf } else c
      match c.proto with
      | .unknown => c
      | .http2 => { c with buf := [] }
      | .custom => handleAll maxb c

def readAll (maxb : Nat) (reads : List (List (List UInt8))) : Conn :=
  reads.foldl (onClientRead maxb) {}

def received (reads : List (List (List UInt8))) (i : Nat) : Nat :=
  ((reads.take i).map fun srcs => srcs.flatten.length).sum

/-- At no read does the buffer with what waits exceed the length of one request. -/
def Fits (maxb : Nat) (rs : List Request) (reads : List (List (List UInt8))) : Prop :=
  ∀ i (h : i < reads.length),
    Framing.pending Request.encode rs (received reads i) + reads[i].flatten.length ≤ maxb

section

variable {maxb : Nat} {rs : List Request} {c : Conn}

lemma bufAppends_eq (srcs : List Bytes) (buf : Bytes) (h : buf.length ≤ maxb) :
    bufAppends maxb srcs buf =
      if buf.length + srcs.flatten.length ≤ maxb then some (buf ++ srcs.flatten) else none := by
  induction srcs generalizing buf with
  | nil => simp [bufAppends, h]
  | cons src srcs ih =>
    simp only [bufAppends, bufAppend, flatten_cons, length_append]
    by_cases hnil : src = []
    · simp only [hnil, if_true, bind_some, ih buf h, length_nil, zero_add, nil_append]
    rw [if_neg hnil]
    by_cases hbig : maxb < buf.length + src.length
    · rw [if_pos hbig, if_neg (by omega)]
      rfl
    rw [if_neg hbig, bind_some, ih _ (by rw [length_append]; omega)]
    simp only [length_append, append_assoc, add_assoc]

lemma detect_zero (bs : Bytes) : detect (0 :: bs) = .custom := by
  have hmin : min (bs.length + 1) 24 = min bs.length 23 + 1 := by omega
  simp [detect, preface, hmin]

lemma encode_head {r : Request} (h : r.WellFormed) : ∃ bs, r.encode = 0 :: bs := by
  have hpath := h.path
  have hzero : r.path.length / 2 ^ 8 = 0 := by omega
  exact ⟨_, by rw [encode, hzero]; rfl⟩

/-- After the first `n` bytes: what is complete was handled, and the rest waits. -/
structure After (maxb : Nat) (rs : List Request) (n : Nat) (c : Conn) : Prop where
  opened : c.closed = false
  calls : c.calls = (rs.take (Framing.split Request.encode rs n).1).map Request.call
  buf : c.buf = ((rs.drop (Framing.split Request.encode rs n).1).flatMap Request.encode).take
    (Framing.pending Request.encode rs n)
  room : Framing.pending Request.encode rs n ≤ maxb
  proto : c.proto = .custom ∨ c.proto = .unknown ∧ c.buf = []

lemma drop_stream (rs : List Request) (n : Nat) : (rs.flatMap encode).drop n =
      ((rs.drop (split encode rs n).1).flatMap encode).drop
        (pending encode rs n) := by
  have hbytes := split_bytes encode rs n
  have hsplit : rs.flatMap encode =
      (rs.take (split encode rs n).1).flatMap encode ++
        (rs.drop (split encode rs n).1).flatMap encode := by
    rw [← flatMap_append, take_append_drop]
  rw [hsplit, drop_append, drop_of_length_le (by omega), nil_append]
  congr 1
  unfold pending
  omega

variable {n : Nat} {b tail : Bytes} {srcs : List Bytes}

section

variable (h : After maxb rs n c)

include h

lemma After.length_buf (hn : n ≤ (rs.flatMap encode).length) :
    c.buf.length = pending encode rs n := by
  have hdrop := congrArg List.length (drop_stream rs n)
  have hbytes := split_bytes encode rs n
  have hsplit : ((rs.take (split encode rs n).1).flatMap encode).length +
      ((rs.drop (split encode rs n).1).flatMap encode).length =
        (rs.flatMap encode).length := by
    rw [← length_append, ← flatMap_append, take_append_drop]
  rw [h.buf, length_take]
  unfold pending
  omega

lemma After.buf_append (hstream : (rs.flatMap encode).drop n = b ++ tail) : c.buf ++ b =
      ((rs.drop (split encode rs n).1).flatMap encode).take
        (pending encode rs n + b.length) := by
  rw [drop_stream] at hstream
  rw [h.buf, take_add, hstream, take_left]

lemma After.handleAll (hrs : ∀ r ∈ rs, r.WellFormed ∧ r.encode.length ≤ maxb)
    (hn : n ≤ (rs.flatMap encode).length)
    (hstream : (rs.flatMap encode).drop n = b ++ tail)
    (hfit : pending encode rs n + b.length ≤ maxb) :
    After maxb rs (n + b.length)
      (handleAll maxb { c with buf := c.buf ++ b, proto := .custom }) := by
  have happend := h.buf_append hstream
  have hadd := split_add encode rs n b.length
  have hleft : pending encode rs n + b.length ≤
      ((rs.drop (split encode rs n).1).flatMap encode).length := by
    have htake := congrArg List.length happend
    rw [length_append, length_take, h.length_buf hn] at htake
    omega
  have hdrain := drain_take
    (fun r hr => (hrs r (mem_of_mem_drop hr)).1.encodes (hrs r (mem_of_mem_drop hr)).2)
    hleft
  have hsnd := split_bytes encode
    (rs.drop (split encode rs n).1) (pending encode rs n + b.length)
  have hcalls := h.calls
  unfold Client.handleAll
  simp only [happend, hdrain]
  refine ⟨h.opened, ?_, ?_, ?_, .inl rfl⟩
  · rw [hcalls, hadd, ← map_append, ← take_add]
    rfl
  · unfold pending
    rw [hadd, drop_drop]
  unfold pending at hsnd hfit ⊢
  rw [hadd]
  simp only
  omega

lemma After.head_zero (hrs : ∀ r ∈ rs, r.WellFormed) (hnil : c.buf = []) {b0 : UInt8}
    {bs : Bytes} (hstream : (rs.flatMap encode).drop n = (b0 :: bs) ++ tail) :
    b0 = 0 := by
  have happend := h.buf_append hstream
  rw [hnil, nil_append] at happend
  cases hleft : rs.drop (split encode rs n).1 with
  | nil =>
    rw [hleft] at happend
    simp at happend
  | cons r left =>
    have hmem : r ∈ rs := mem_of_mem_drop (hleft ▸ mem_cons_self)
    obtain ⟨tail', hhead⟩ := encode_head (hrs r hmem)
    rw [hleft, flatMap_cons, hhead, cons_append, length_cons, ← add_assoc,
      take_succ_cons] at happend
    exact (List.cons.inj happend).1

lemma After.read (hrs : ∀ r ∈ rs, r.WellFormed ∧ r.encode.length ≤ maxb)
    (hn : n ≤ (rs.flatMap encode).length)
    (hstream : (rs.flatMap encode).drop n = srcs.flatten ++ tail)
    (hfit : pending encode rs n + srcs.flatten.length ≤ maxb) :
    After maxb rs (n + srcs.flatten.length) (onClientRead maxb c srcs) := by
  have hlen := h.length_buf hn
  have hroom : c.buf.length ≤ maxb := hlen ▸ h.room
  have hall := h.handleAll hrs hn hstream hfit
  have hopen := h.opened
  unfold onClientRead
  simp only [bufAppends_eq srcs c.buf hroom, hlen, if_pos hfit, hopen, Bool.false_eq_true, if_false]
  obtain hcustom | ⟨hunknown, hnil⟩ := h.proto
  · simp only [hcustom, reduceCtorEq, if_false]
    simpa [hopen] using hall
  simp only [hunknown, if_true, hnil, nil_append] at hall ⊢
  cases hbytes : srcs.flatten with
  | nil =>
    -- nothing was decrypted: the connection is as it was
    have hsame : ({ calls := c.calls } : Conn) = c := by
      cases c
      simp_all
    simpa [detect, hopen, hsame] using h
  | cons b0 bs =>
    rw [hbytes] at hstream hall
    have hzero := h.head_zero (fun r hr => (hrs r hr).1) hnil hstream
    subst hzero
    simp only [detect_zero]
    simpa [hopen] using hall

lemma After.overflow (hn : n ≤ (rs.flatMap encode).length)
    (hbig : ¬ pending encode rs n + srcs.flatten.length ≤ maxb) :
    (onClientRead maxb c srcs).closed := by
  have hlen := h.length_buf hn
  have hroom : c.buf.length ≤ maxb := hlen ▸ h.room
  unfold onClientRead
  simp only [bufAppends_eq srcs c.buf hroom, hlen, if_neg hbig, h.opened, Bool.false_eq_true, if_false]

end

lemma closed_reads (hc : c.closed) (reads : List (List Bytes)) :
    (reads.foldl (onClientRead maxb) c).closed := by
  induction reads generalizing c with
  | nil => exact hc
  | cons srcs reads ih =>
    have hsame : onClientRead maxb c srcs = c := by simp [onClientRead, hc]
    rw [foldl_cons, hsame]
    exact ih hc

lemma After.reads (h : After maxb rs n c)
    (hrs : ∀ r ∈ rs, r.WellFormed ∧ r.encode.length ≤ maxb) (reads : List (List Bytes))
    (hn : n ≤ (rs.flatMap encode).length)
    (hstream : (rs.flatMap encode).drop n = (reads.map List.flatten).flatten) :
    ((reads.foldl (onClientRead maxb) c).calls = rs.map Request.call ∧
        (reads.foldl (onClientRead maxb) c).closed = false) ↔
      ∀ i (hi : i < reads.length),
        pending encode rs (n + received reads i) + reads[i].flatten.length ≤ maxb := by
  induction reads generalizing c n with
  | nil =>
    -- all was read, so all requests have been called
    have hend : n = (rs.flatMap encode).length := by
      have hzero := congrArg List.length hstream
      simp only [length_drop, map_nil, flatten_nil, length_nil] at hzero
      omega
    have hcalls := h.calls
    rw [hend, split_length, take_length] at hcalls
    refine iff_of_true ⟨hcalls, h.opened⟩ ?_
    intro i hi
    simp at hi
  | cons srcs reads ih =>
    rw [map_cons, flatten_cons] at hstream
    have hlen := congrArg List.length hstream
    rw [length_drop, length_append] at hlen
    rw [foldl_cons]
    -- does the read fit behind what is left of an unfinished request?
    by_cases hfit : pending encode rs n + srcs.flatten.length ≤ maxb
    · have hnext := h.read hrs hn hstream hfit
      have htail : (rs.flatMap encode).drop (n + srcs.flatten.length) =
          (reads.map List.flatten).flatten := by
        rw [← drop_drop, hstream, drop_left]
      rw [ih hnext (by omega) htail]
      constructor
      · intro hall i hi
        cases i with
        | zero => simpa [received] using hfit
        | succ i =>
          have hi' := hall i (by simpa using hi)
          simpa [received, add_assoc] using hi'
      intro hall i hi
      have hi' := hall (i + 1) (by simpa using hi)
      simpa [received, add_assoc] using hi'
    -- the connection is closed, and nothing that comes later opens it again
    · have hclosed := @closed_reads maxb _ (h.overflow hn hfit) reads
      refine iff_of_false ?_ ?_
      · rintro ⟨_, hopen⟩
        rw [hclosed] at hopen
        cases hopen
      intro hall
      exact hfit (hall 0 (Nat.succ_pos _))

lemma readAll_iff (hrs : ∀ r ∈ rs, r.WellFormed ∧ r.encode.length ≤ maxb)
    (reads : List (List Bytes))
    (hstream : rs.flatMap encode = (reads.map List.flatten).flatten) :
    ((readAll maxb reads).calls = rs.map Request.call ∧ (readAll maxb reads).closed = false) ↔
      Fits maxb rs reads := by
  have hsplit : split encode rs 0 = (0, 0) := by
    cases rs with
    | nil => rfl
    | cons r rs =>
      have hpos := length_pos_of_ne_nil r.encode_ne_nil
      rw [split, if_neg (by omega)]
  have hstart : After maxb rs 0 {} :=
    ⟨rfl, by simp [hsplit], by simp [pending, hsplit], by simp [pending, hsplit],
      .inr ⟨rfl, rfl⟩⟩
  have h := hstart.reads hrs reads zero_le (by simpa using hstream)
  simpa [readAll, Fits] using h

end

/-- However the stream is cut, the requests are handled in order and the connection stays open,
exactly if what waits and what arrives never exceeds the limit of one request. -/
theorem segmentation_irrelevant_iff (configured : Nat) (rs : List Request)
    (reads : List (List (List UInt8)))
    (hrs : ∀ r ∈ rs, r.WellFormed ∧ r.encode.length ≤ maxBytes configured)
    (hstream : rs.flatMap Request.encode = (reads.map List.flatten).flatten) :
    ((readAll (maxBytes configured) reads).calls = rs.map Request.call ∧
        (readAll (maxBytes configured) reads).closed = false) ↔
      Fits (maxBytes configured) rs reads :=
  readAll_iff hrs reads hstream

def tiny : Request := { path := [0x61], flags := 0, token := none, payload := [1, 2, 3] }

lemma tiny_wellFormed : tiny.WellFormed :=
  ⟨by decide, by decide, by decide, by simp [tiny], by decide⟩

theorem segmentation_irrelevant_two :
    (∀ r ∈ [tiny, tiny], r.WellFormed ∧ r.encode.length ≤ maxBytes 16) ∧
      [tiny, tiny].flatMap Request.encode =
        ([[tiny.encode ++ tiny.encode.take 3], [tiny.encode.drop 3]].map List.flatten).flatten ∧
      (((readAll (maxBytes 16) [[tiny.encode ++ tiny.encode.take 3], [tiny.encode.drop 3]]).calls =
          [tiny, tiny].map Request.call ∧
        (readAll (maxBytes 16) [[tiny.encode ++ tiny.encode.take 3], [tiny.encode.drop 3]]).closed =
          false) ↔
        Fits (maxBytes 16) [tiny, tiny]
          [[tiny.encode ++ tiny.encode.take 3], [tiny.encode.drop 3]]) := by
  have hrs : ∀ r ∈ [tiny, tiny], r.WellFormed ∧ r.encode.length ≤ maxBytes 16 := by
    intro r hr
    have htiny : r = tiny := by simpa using hr
    subst htiny
    exact ⟨tiny_wellFormed, by decide⟩
  exact ⟨hrs, by decide, segmentation_irrelevant_iff 16 _ _ hrs (by decide)⟩

/-- The same two requests in one read close the connection, with nothing handled. -/
theorem pipelined_requests_closed : tiny.WellFormed ∧ tiny.encode.length ≤ maxBytes 16 ∧
      (readAll (maxBytes 16) [[tiny.encode ++ tiny.encode]]).closed = true ∧
      (readAll (maxBytes 16) [[tiny.encode ++ tiny.encode]]).calls = [] :=
  ⟨tiny_wellFormed, by decide, by decide, by decide⟩

end Cetcd.Client
