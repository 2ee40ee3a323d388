import KvRouter.Go
import Mathlib.Tactic.Common

/-!
# KvRouter.Proxy

Forwarding, `internal/backend/proxy.go`, and the response writer it writes to.

* A `Body` is the sequence of reads that its `Read` calls return, any of them
  possibly empty; the last one comes with EOF or with an error.
* A `Client` says which of the writes to it succeed and whether its writer can
  flush; a `Writer` is what was sent to it so far.
* What the upstream answers is an input of the request: `Upstream` is the result
  of `Forward` on a backend.

`WriteHeader` panics on a status that is not a three-digit number, which an
upstream can send.
-/

namespace KvRouter.Proxy

/-! ## Bodies -/

/-- A read error other than EOF. -/
inductive ReadError
  | failed
deriving DecidableEq

/-- The reads of a body. -/
inductive Body
  /-- the read that ends the body, with EOF (`none`) or an error -/
  | last (bytes : Bytes) (err : Option ReadError)
  | read (bytes : Bytes) (rest : Body)
deriving DecidableEq

/-- The bytes of all reads. -/
def Body.bytes : Body → Bytes
  | .last bytes _ => bytes
  | .read bytes rest => bytes ++ rest.bytes

/-- The error that ends the body, none for EOF. -/
def Body.err : Body → Option ReadError
  | .last _ err => err
  | .read _ rest => rest.err

/-- `io.ReadAll` of a body limited by `http.MaxBytesReader`. -/
def readAll (body : Body) (limit : ℕ) : Option Bytes :=
  if body.err = none ∧ body.bytes.length ≤ limit then some body.bytes else none

/-! ## The response writer -/

/-- The body of an error response. -/
structure ErrorBody where
  message : String
  type : String
deriving DecidableEq

/-- What one `Write` hands over. -/
inductive Chunk
  | bytes (bytes : Bytes)
  | json (body : ErrorBody)
deriving DecidableEq

/-- What a handler has sent: the backend header, the status once it is settled,
and the writes in order. -/
structure Writer where
  backend : Option String
  status : Option ℕ
  writes : List Chunk
deriving DecidableEq

def Writer.new : Writer := ⟨none, none, []⟩

/-- The panic of `WriteHeader`. -/
inductive Panic
  | invalidWriteHeaderCode (code : ℕ)
deriving DecidableEq

/-- `WriteHeader`: the first final status is the one sent; informational ones
do not settle it. -/
def Writer.writeHeader (w : Writer) (code : ℕ) : Except Panic Writer :=
  if code < 100 ∨ 999 < code then .error (.invalidWriteHeaderCode code)
  else if w.status.isSome then .ok w
  else if code ≤ 199 ∧ code ≠ 101 then .ok w
  else .ok { w with status := some code }

/-- `Write`, which sends status 200 if none is settled. -/
def Writer.write (w : Writer) (c : Chunk) : Writer :=
  { w with status := some (w.status.getD 200), writes := w.writes ++ [c] }

/-- A client: whether its `ResponseWriter` is a `Flusher`, and whether the
`n`-th write to it succeeds. -/
structure Client where
  flusher : Bool
  accepts : ℕ → Bool

/-- Hand over the bytes of one read, if there are any; whether that succeeded. -/
def Writer.handOver (w : Writer) (client : Client) (bytes : Bytes) : Writer × Bool :=
  if bytes = [] then (w, true) else (w.write (.bytes bytes), client.accepts w.writes.length)

/-! ## Forwarding -/

/-- The steps of `Forward` that can fail. -/
inductive ForwardError
  | buildURL
  | buildRequest
  | requestFailed
deriving DecidableEq

/-- An upstream response. -/
structure Response where
  statusCode : ℕ
  body : Body
deriving DecidableEq

/-- What `Forward` returns. -/
abbrev Upstream := Except ForwardError Response

/-- The errors of a relay. -/
inductive RelayError
  | forward (err : ForwardError)
  | noFlusher
  | write
  | read (err : ReadError)
deriving DecidableEq

/-- `io.Copy(w, body)`. -/
def ioCopy (client : Client) (w : Writer) : Body → Writer × Option RelayError
  | .last bytes err =>
      let r := w.handOver client bytes
      if !r.2 then (r.1, some .write) else (r.1, err.map .read)
  | .read bytes rest =>
      let r := w.handOver client bytes
      if !r.2 then (r.1, some .write) else ioCopy client r.1 rest

/-- `TTFTResult`, with the measured time. -/
structure TTFTResult where
  backendID : String
  ttft : ℤ
deriving DecidableEq

/-- `Milliseconds` of the measured time. -/
def TTFTResult.millis (r : TTFTResult) : ℤ := r.ttft.tdiv 1000000

/-- The TTFT result after a read: the first byte sets it. -/
def observe (first : TTFTResult) (ttft : Option TTFTResult) (bytes : Bytes) : Option TTFTResult :=
  if bytes = [] then ttft else some (ttft.getD first)

/-- The relay loop of `ForwardStream`; `first` is the result the first byte sets. -/
def streamLoop (client : Client) (first : TTFTResult) (ttft : Option TTFTResult) (w : Writer) :
    Body → Option TTFTResult × Option RelayError × Writer
  | .last bytes err =>
      let ttft := observe first ttft bytes
      let r := w.handOver client bytes
      if !r.2 then (ttft, some .write, r.1) else (ttft, err.map .read, r.1)
  | .read bytes rest =>
      let ttft := observe first ttft bytes
      let r := w.handOver client bytes
      if !r.2 then (ttft, some .write, r.1) else streamLoop client first ttft r.1 rest

/-- `ForwardStream`: relay a response without rewriting its status. -/
def forwardStream (upstream : Upstream) (client : Client) (first : TTFTResult) (w : Writer) :
    Except Panic (Option TTFTResult × Option RelayError × Writer) :=
  match upstream with
  | .error err => .ok (none, some (.forward err), w)
  | .ok resp =>
      match w.writeHeader resp.statusCode with
      | .error e => .error e
      | .ok w =>
          if resp.statusCode ≥ 400 then
            let r := ioCopy client w resp.body
            .ok (none, r.2, r.1)
          else if !client.flusher then .ok (none, some .noFlusher, w)
          else .ok (streamLoop client first none w resp.body)

/-! ## The relay loop -/

/-- The relay loop is `io.Copy` with a stopwatch. -/
theorem streamLoop_eq_ioCopy (client : Client) (first : TTFTResult) (ttft : Option TTFTResult)
    (w : Writer) (body : Body) :
    (streamLoop client first ttft w body).2 =
      ((ioCopy client w body).2, (ioCopy client w body).1) := by
  induction body generalizing ttft w with
  | last bytes err =>
      simp only [streamLoop, ioCopy]
      split <;> rfl
  | read bytes rest ih =>
      simp only [streamLoop, ioCopy]
      split
      · rfl
      · exact ih _ _

/-- The relay loop observes a first byte exactly when the body has one. -/
theorem streamLoop_ttft (client : Client) (first : TTFTResult) (ttft : Option TTFTResult)
    (w : Writer) (body : Body) :
    (streamLoop client first ttft w body).1.isSome ↔ ttft.isSome ∨ body.bytes ≠ [] := by
  induction body generalizing ttft w with
  | last bytes err =>
      simp only [streamLoop, Body.bytes, observe]
      by_cases hbytes : bytes = []
      · simp [hbytes, Writer.handOver]
      · split <;> simp [hbytes]
  | read bytes rest ih =>
      simp only [streamLoop, Body.bytes, observe]
      by_cases hbytes : bytes = []
      · simp [hbytes, Writer.handOver, ih]
      · split
        · simp [hbytes]
        · simp [hbytes, ih]

/-- **What `ForwardStream` does with a response**: it relays nothing of a stream to a writer that
cannot flush, and otherwise it copies the body, with a stopwatch below 400. -/
theorem forwardStream_cases {resp : Response} {client : Client} {first : TTFTResult}
    {w w' : Writer} {ttft : Option TTFTResult} {err : Option RelayError}
    (h : forwardStream (.ok resp) client first w = .ok (ttft, err, w')) :
    ∃ w₁, w.writeHeader resp.statusCode = .ok w₁ ∧
      (resp.statusCode < 400 ∧ client.flusher = false ∧ ttft = none ∧
          err = some .noFlusher ∧ w' = w₁ ∨
        (400 ≤ resp.statusCode ∨ client.flusher = true) ∧
          (ttft.isSome = true ↔ resp.statusCode < 400 ∧ resp.body.bytes ≠ []) ∧
          err = (ioCopy client w₁ resp.body).2 ∧ w' = (ioCopy client w₁ resp.body).1) := by
  cases hhead : w.writeHeader resp.statusCode with
  | error e => simp [forwardStream, hhead] at h
  | ok w₁ =>
      refine ⟨w₁, rfl, ?_⟩
      simp only [forwardStream, hhead] at h
      split_ifs at h with hcode hflush
      · cases h
        exact Or.inr ⟨Or.inl hcode, by simp [Nat.not_lt.mpr hcode], rfl, rfl⟩
      · cases h
        exact Or.inl ⟨Nat.not_le.mp hcode, by simpa using hflush, rfl, rfl, rfl⟩
      · have hcopy := streamLoop_eq_ioCopy client first none w₁ resp.body
        have httft := streamLoop_ttft client first none w₁ resp.body
        rw [Except.ok.inj h] at hcopy httft
        obtain ⟨rfl, rfl⟩ := Prod.mk.inj hcopy
        exact Or.inr ⟨Or.inr (by simpa using hflush), by simpa [Nat.not_le.mp hcode] using httft,
          rfl, rfl⟩

/-- What every `Write` keeps, `io.Copy` keeps. -/
theorem ioCopy_keeps {β : Type} {f : Writer → β} {client : Client}
    (hf : ∀ w bytes, f (w.handOver client bytes).1 = f w) (w : Writer) (body : Body) :
    f (ioCopy client w body).1 = f w := by
  induction body generalizing w with
  | last bytes err =>
      simp only [ioCopy]
      split <;> exact hf w bytes
  | read bytes rest ih =>
      simp only [ioCopy]
      split
      · exact hf w bytes
      · rw [ih, hf]

/-! ## The backend header -/

/- Nothing that is written changes the backend header. -/

/-- `WriteHeader` changes nothing but the status. -/
theorem writeHeader_eq {w w' : Writer} {code : ℕ} (h : w.writeHeader code = .ok w') :
    w' = { w with status := w'.status } := by
  unfold Writer.writeHeader at h
  split at h
  · contradiction
  · split_ifs at h <;> cases h <;> rfl

theorem writeHeader_backend {w w' : Writer} {code : ℕ} (h : w.writeHeader code = .ok w') :
    w'.backend = w.backend := by
  rw [writeHeader_eq h]

theorem writeHeader_writes {w w' : Writer} {code : ℕ} (h : w.writeHeader code = .ok w') :
    w'.writes = w.writes := by
  rw [writeHeader_eq h]

theorem handOver_backend (w : Writer) (client : Client) (bytes : Bytes) :
    (w.handOver client bytes).1.backend = w.backend := by
  unfold Writer.handOver
  split <;> rfl

theorem ioCopy_backend (client : Client) (w : Writer) (body : Body) :
    (ioCopy client w body).1.backend = w.backend :=
  ioCopy_keeps (fun w => handOver_backend w client) w body

/-- Relaying a stream names no backend. -/
theorem forwardStream_backend {upstream : Upstream} {client : Client} {first : TTFTResult}
    {w w' : Writer} {ttft : Option TTFTResult} {err : Option RelayError}
    (h : forwardStream upstream client first w = .ok (ttft, err, w')) : w'.backend = w.backend := by
  cases upstream with
  | error e =>
      cases h
      rfl
  | ok resp =>
      obtain ⟨w₁, hhead, ⟨-, -, -, -, rfl⟩ | ⟨-, -, -, rfl⟩⟩ := forwardStream_cases h
      · exact writeHeader_backend hhead
      · exact (ioCopy_backend client w₁ resp.body).trans (writeHeader_backend hhead)

/-! ## What arrives -/

/-- The status the client receives; a status that is never settled becomes 200. -/
def Writer.sent (w : Writer) : ℕ := w.status.getD 200

theorem handOver_sent (w : Writer) (client : Client) (bytes : Bytes) :
    (w.handOver client bytes).1.sent = w.sent := by
  unfold Writer.handOver
  split <;> rfl

theorem ioCopy_sent (client : Client) (w : Writer) (body : Body) :
    (ioCopy client w body).1.sent = w.sent := ioCopy_keeps (fun w => handOver_sent w client) w body

/-- A fresh writer sends the status it is given, unless that is informational. -/
theorem writeHeader_sent {w w' : Writer} {code : ℕ} (hw : w.status = none)
    (h : w.writeHeader code = .ok w') : 400 ≤ w'.sent ↔ 400 ≤ code := by
  unfold Writer.writeHeader at h
  rw [hw] at h
  split at h
  · contradiction
  · simp only [Option.isSome_none, Bool.false_eq_true, if_false] at h
    split at h
    · next hinfo =>
        cases h
        rw [Writer.sent, hw, Option.getD_none]
        omega
    · cases h
      rfl

/-- The client takes every non-empty read of a body, its writes being numbered
from `n`. -/
def Client.Takes (client : Client) : ℕ → Body → Prop
  | n, .last bytes _ => bytes = [] ∨ client.accepts n = true
  | n, .read bytes rest =>
      if bytes = [] then client.Takes n rest
      else client.accepts n = true ∧ client.Takes (n + 1) rest

/-- The whole body reaches the client. -/
def Client.Delivered (client : Client) (n : ℕ) (body : Body) : Prop :=
  client.Takes n body ∧ body.err = none

/-- `io.Copy` fails unless the whole body is delivered. -/
theorem ioCopy_err (client : Client) (w : Writer) (body : Body) :
    (ioCopy client w body).2 = none ↔ client.Delivered w.writes.length body := by
  induction body generalizing w with
  | last bytes err =>
      by_cases hbytes : bytes = []
      · simp [ioCopy, Client.Delivered, Client.Takes, Body.err, Writer.handOver, hbytes]
      · by_cases haccepts : client.accepts w.writes.length = true
        · simp [ioCopy, Client.Delivered, Client.Takes, Body.err, Writer.handOver, hbytes, haccepts]
        · simp [ioCopy, Client.Delivered, Client.Takes, Writer.handOver, hbytes, haccepts]
  | read bytes rest ih =>
      by_cases hbytes : bytes = []
      · simp [ioCopy, Client.Delivered, Client.Takes, Body.err, Writer.handOver, hbytes, ih]
      · by_cases haccepts : client.accepts w.writes.length = true
        · simp [ioCopy, Client.Delivered, Client.Takes, Body.err, Writer.handOver, Writer.write,
            hbytes, haccepts, ih]
        · simp [ioCopy, Client.Delivered, Client.Takes, Writer.handOver, hbytes, haccepts]

/-- The status a client receives through `ForwardStream` is an error status if
the upstream's is. -/
theorem forwardStream_sent {resp : Response} {client : Client} {first : TTFTResult}
    {w w' : Writer} {ttft : Option TTFTResult} {err : Option RelayError} (hw : w.status = none)
    (h : forwardStream (.ok resp) client first w = .ok (ttft, err, w')) :
    400 ≤ w'.sent ↔ 400 ≤ resp.statusCode := by
  obtain ⟨w₁, hhead, ⟨-, -, -, -, rfl⟩ | ⟨-, -, -, rfl⟩⟩ := forwardStream_cases h
  · exact writeHeader_sent hw hhead
  · rw [ioCopy_sent]
    exact writeHeader_sent hw hhead

/-- `ForwardStream` fails unless the whole body is delivered, by a writer that
can flush if it is streamed. -/
theorem forwardStream_err {resp : Response} {client : Client} {first : TTFTResult}
    {w w' : Writer} {ttft : Option TTFTResult} {err : Option RelayError}
    (h : forwardStream (.ok resp) client first w = .ok (ttft, err, w')) :
    err = none ↔ client.Delivered w.writes.length resp.body ∧
      (400 ≤ resp.statusCode ∨ client.flusher = true) := by
  obtain ⟨w₁, hhead, ⟨hcode, hflush, -, rfl, -⟩ | ⟨hflush, -, rfl, -⟩⟩ := forwardStream_cases h
  · simp [hflush, Nat.not_le.mpr hcode]
  · rw [← writeHeader_writes hhead, ← ioCopy_err, and_iff_left hflush]

end KvRouter.Proxy
