import KvRouter.Proxy

/-!
# KvRouter.Relay

The relay loop of `ForwardStream` is faithful.  `Body.made` are the reads it
makes of a body: all of them, or those up to the first whose write fails
(`made_ends`).  What it hands to the writer are the slices of these reads that
have bytes, in order (`ioCopy_writes`), and it ends without an error exactly
when it has made all reads, the body ends with EOF and every write succeeded.
-/

namespace KvRouter.Proxy

variable {client : Client} {n : ℕ} {body : Body}

/-! ## The reads of a body -/

def Body.reads : Body → List Bytes
  | .last bytes _ => [bytes]
  | .read bytes rest => bytes :: rest.reads

/-- The reads that are written: those with bytes. -/
def slices (reads : List Bytes) : List Bytes := reads.filter (· ≠ [])

@[simp] theorem slices_cons_nil (reads : List Bytes) : slices ([] :: reads) = slices reads := by
  simp [slices]

@[simp] theorem slices_cons {bytes : Bytes} (h : bytes ≠ []) (reads : List Bytes) :
    slices (bytes :: reads) = bytes :: slices reads := by
  simp [slices, h]

@[simp] theorem slices_nil : slices [] = [] := rfl

/-- The slices hold the bytes of the reads. -/
theorem flatten_slices (reads : List Bytes) : (slices reads).flatten = reads.flatten :=
  List.flatten_filter_ne_nil

/-- The reads made of a body when the writes are numbered from `n`: no more follow one whose
write fails. -/
def Body.made (client : Client) : ℕ → Body → List Bytes
  | _, .last bytes _ => [bytes]
  | n, .read bytes rest =>
      bytes ::
        if bytes = [] then rest.made client n
        else if client.accepts n then rest.made client (n + 1) else []

/-! ## How far the loop gets -/

/-- The reads that are made are the first of the body. -/
theorem made_prefix (client : Client) (n : ℕ) (body : Body) :
    body.made client n <+: body.reads := by
  induction body generalizing n with
  | last bytes err => exact List.prefix_refl _
  | read bytes rest ih =>
      rw [Body.made, Body.reads, List.prefix_cons_inj]
      split_ifs
      · exact ih n
      · exact ih (n + 1)
      · exact List.nil_prefix

/-- Every write but the last succeeded. -/
theorem accepts_of_made {i : ℕ} (hi : i + 1 < (slices (body.made client n)).length) :
    client.accepts (n + i) = true := by
  induction body generalizing n i with
  | last bytes err =>
      by_cases hbytes : bytes = [] <;> simp [Body.made, hbytes] at hi
  | read bytes rest ih =>
      by_cases hbytes : bytes = []
      · exact ih (by simpa [Body.made, hbytes] using hi)
      · by_cases haccepts : client.accepts n = true
        · simp only [Body.made, hbytes, haccepts, if_true, if_false, ne_eq, not_false_eq_true,
            slices_cons, List.length_cons] at hi
          cases i with
          | zero => exact haccepts
          | succ i =>
              rw [← Nat.add_assoc, Nat.add_right_comm]
              exact ih (by omega)
        · simp [Body.made, hbytes, haccepts] at hi

/-- The loop makes all reads, or its last write failed. -/
theorem made_ends (client : Client) (n : ℕ) (body : Body) :
    body.made client n = body.reads ∨
      ∃ front bytes, body.made client n = front ++ [bytes] ∧ bytes ≠ [] ∧
        client.accepts (n + (slices front).length) = false := by
  induction body generalizing n with
  | last bytes err => exact Or.inl rfl
  | read bytes rest ih =>
      by_cases hbytes : bytes = []
      · obtain hall | ⟨front, bytes', hmade, hne, hfails⟩ := ih n
        · exact Or.inl (by simp [Body.made, Body.reads, hbytes, hall])
        · exact Or.inr ⟨bytes :: front, bytes', by simp [Body.made, hbytes, hmade], hne,
            by simpa [hbytes] using hfails⟩
      · by_cases haccepts : client.accepts n = true
        · obtain hall | ⟨front, bytes', hmade, hne, hfails⟩ := ih (n + 1)
          · exact Or.inl (by simp [Body.made, Body.reads, hbytes, haccepts, hall])
          · refine Or.inr ⟨bytes :: front, bytes', by simp [Body.made, hbytes, haccepts, hmade],
              hne, ?_⟩
            rw [slices_cons hbytes, List.length_cons, ← Nat.add_assoc, Nat.add_right_comm]
            exact hfails
        · exact Or.inr ⟨[], bytes, by simp [Body.made, hbytes, haccepts], hbytes,
            by simpa using haccepts⟩

/-- A body with a byte has one in the reads that are made. -/
theorem slices_made (client : Client) (n : ℕ) (body : Body) :
    body.bytes ≠ [] ↔ ∃ bytes ∈ body.made client n, bytes ≠ [] := by
  induction body generalizing n with
  | last bytes err => simp [Body.made, Body.bytes]
  | read bytes rest ih =>
      by_cases hbytes : bytes = []
      · simpa [Body.made, Body.bytes, hbytes] using ih n
      · simp [Body.made, Body.bytes, hbytes]

/-- The client takes a body if all reads are made and all writes succeed. -/
theorem takes_iff : client.Takes n body ↔ body.made client n = body.reads ∧
    ∀ i < (slices (body.made client n)).length, client.accepts (n + i) = true := by
  induction body generalizing n with
  | last bytes err =>
      by_cases hbytes : bytes = [] <;> simp [Client.Takes, Body.made, Body.reads, hbytes]
  | read bytes rest ih =>
      by_cases hbytes : bytes = []
      · simp [Client.Takes, Body.made, Body.reads, hbytes, ih]
      · by_cases haccepts : client.accepts n = true
        · have hshift (k : ℕ) : (∀ i < k + 1, client.accepts (n + i) = true) ↔
              ∀ i < k, client.accepts (n + 1 + i) = true := by
            rw [Nat.forall_lt_succ_left, Nat.add_zero, and_iff_right haccepts]
            simp only [Nat.add_assoc, Nat.add_comm 1]
          simp only [Client.Takes, Body.made, Body.reads, hbytes, haccepts, if_true, if_false,
            ne_eq, not_false_eq_true, slices_cons, List.length_cons, List.cons.injEq, true_and,
            ih, hshift]
        · simp [Client.Takes, Body.made, hbytes, haccepts]

/-! ## What is handed over -/

/-- `io.Copy` writes the slices of the reads that it makes. -/
theorem ioCopy_writes (client : Client) (w : Writer) (body : Body) :
    (ioCopy client w body).1.writes =
      w.writes ++ (slices (body.made client w.writes.length)).map .bytes := by
  induction body generalizing w with
  | last bytes err =>
      by_cases hbytes : bytes = []
      · simp [ioCopy, Body.made, Writer.handOver, hbytes]
      · by_cases haccepts : client.accepts w.writes.length = true <;>
          simp [ioCopy, Body.made, Writer.handOver, Writer.write, hbytes, haccepts]
  | read bytes rest ih =>
      by_cases hbytes : bytes = []
      · simp [ioCopy, Body.made, Writer.handOver, hbytes, ih]
      · by_cases haccepts : client.accepts w.writes.length = true <;>
          simp [ioCopy, Body.made, Writer.handOver, Writer.write, hbytes, haccepts, ih]

/-! ## The relay -/

/-- What a relay of `body` from the `n`-th write on has done when it ends: the writes `written`,
the TTFT result and the error, for the reads `made`. -/
structure Faithful (client : Client) (n : ℕ) (body : Body) (made : List Bytes)
    (written : List Chunk) (ttft : Option TTFTResult) (err : Option RelayError) : Prop where
  reads : made <+: body.reads
  /-- It stops at the read that ends the body or at the first write that fails. -/
  ends : made = body.reads ∨ ∃ front bytes, made = front ++ [bytes] ∧ bytes ≠ [] ∧
    client.accepts (n + (slices front).length) = false
  accepts : ∀ i, i + 1 < (slices made).length → client.accepts (n + i) = true
  /-- The writes are the reads that have bytes, in order. -/
  inOrder : written = (slices made).map .bytes ∧ (slices made).flatten = made.flatten
  first : ttft.isSome ↔ ∃ bytes ∈ made, bytes ≠ []
  ok : err = none ↔ made = body.reads ∧ body.err = none ∧
    ∀ i < (slices made).length, client.accepts (n + i) = true

/-- **The loop of `ForwardStream`** hands over what it has read, in order, until one side fails. -/
theorem faithful_streamLoop (client : Client) (first : TTFTResult) (w : Writer) (body : Body) :
    ∃ ttft err w' made written, streamLoop client first none w body = (ttft, err, w') ∧
      w'.writes = w.writes ++ written ∧
      Faithful client w.writes.length body made written ttft err := by
  have hcopy : streamLoop client first none w body = ((streamLoop client first none w body).1,
      (ioCopy client w body).2, (ioCopy client w body).1) := by
    rw [← streamLoop_eq_ioCopy client first none w body]
  have httft := streamLoop_ttft client first none w body
  have herr := ioCopy_err client w body
  rw [Client.Delivered, takes_iff, and_right_comm, and_assoc] at herr
  refine ⟨_, _, _, body.made client w.writes.length, _, hcopy,
    ioCopy_writes client w body, made_prefix .., made_ends .., fun i hi => accepts_of_made hi,
    ⟨rfl, flatten_slices _⟩, ?_, herr⟩
  rw [httft, ← slices_made]
  simp

/-- **The relay is faithful** for every status below 400 that can be sent; one below 100 panics
before anything is read. -/
theorem forwardStream_faithful (resp : Response) (client : Client) (first : TTFTResult)
    (w : Writer) (hcode : resp.statusCode < 400) (hflush : client.flusher = true) :
    (resp.statusCode < 100 → forwardStream (.ok resp) client first w =
      .error (.invalidWriteHeaderCode resp.statusCode)) ∧
    (100 ≤ resp.statusCode → ∃ ttft err w' made written,
      forwardStream (.ok resp) client first w = .ok (ttft, err, w') ∧
      w'.writes = w.writes ++ written ∧
      Faithful client w.writes.length resp.body made written ttft err) := by
  constructor
  · intro hlow
    simp [forwardStream, Writer.writeHeader, hlow]
  · intro hlow
    obtain ⟨w₁, hhead⟩ : ∃ w₁, w.writeHeader resp.statusCode = .ok w₁ := by
      unfold Writer.writeHeader
      rw [if_neg (by omega)]
      split_ifs <;> exact ⟨_, rfl⟩
    obtain ⟨ttft, err, w', made, written, hloop, hwrites, hfaithful⟩ :=
      faithful_streamLoop client first w₁ resp.body
    rw [writeHeader_writes hhead] at hwrites hfaithful
    refine ⟨ttft, err, w', made, written, ?_, hwrites, hfaithful⟩
    simp [forwardStream, hhead, Nat.not_le.mpr hcode, hflush, hloop]

/-- An empty read, one with a byte whose write fails, and one that is not made. -/
theorem forwardStream_faithful_sample :
    let resp : Response := ⟨200, .read [] (.read [104] (.last [105] none))⟩
    let client : Client := ⟨true, fun _ => false⟩
    let first : TTFTResult := ⟨"a", 1⟩
    (resp.statusCode < 100 → forwardStream (.ok resp) client first Writer.new =
      .error (.invalidWriteHeaderCode resp.statusCode)) ∧
    (100 ≤ resp.statusCode → ∃ ttft err w' made written,
      forwardStream (.ok resp) client first Writer.new = .ok (ttft, err, w') ∧
      w'.writes = Writer.new.writes ++ written ∧
      Faithful client 0 resp.body made written ttft err) :=
  forwardStream_faithful ⟨200, .read [] (.read [104] (.last [105] none))⟩ ⟨true, fun _ => false⟩
    ⟨"a", 1⟩ Writer.new (by decide) rfl

/-- A response with status 99 and a body is not relayed: `WriteHeader` panics. -/
theorem forwardStream_low_status :
    ¬ ∀ (resp : Response) (client : Client) (first : TTFTResult) (w : Writer),
      resp.statusCode < 400 → client.flusher = true → ∃ ttft err w' made written,
        forwardStream (.ok resp) client first w = .ok (ttft, err, w') ∧
        w'.writes = w.writes ++ written ∧
        Faithful client w.writes.length resp.body made written ttft err := by
  intro hall
  obtain ⟨_, _, _, _, _, hrelay, -⟩ :=
    hall ⟨99, .last [104] none⟩ ⟨true, fun _ => true⟩ ⟨"a", 1⟩ Writer.new (by decide) rfl
  cases hrelay

end KvRouter.Proxy
