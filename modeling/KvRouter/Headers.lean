import KvRouter.Lib.GoMap

/-!
# KvRouter.Headers

The header fields that cross the proxy, `forwardHeaders` and `CopyHeaders` of
`internal/backend/proxy.go`.  Both range over a header map and skip the
hop-by-hop fields of a fixed list; the request direction skips `Host` and
`Content-Length` as well.

A message can nominate more hop-by-hop fields in its own `Connection` header.
Neither function looks there, so exactly the end-to-end fields cross when the
fixed list covers every field that is nominated (`endToEnd_iff`).

A field is a key with a value: a key that holds the empty list is no line of
the message.
-/

namespace KvRouter.Headers

/-! ## Header maps -/

/-- An `http.Header`. -/
abbrev Header := GoMap String (List String)

/-- The values under a key, none without it. -/
def Header.values (h : Header) (key : String) : List String := (h.lookup key).getD []

/-- The characters of a token, and so of a field name. -/
def isTokenChar (c : Char) : Bool := c.isAlphanum || "!#$%&'*+-.^_`|~".toList.contains c

def isToken (s : String) : Bool := s ≠ "" && s.toList.all isTokenChar

/-- The letters of a canonical key: a capital at the start and behind each hyphen. -/
def canonicalFrom (upper : Bool) : List Char → List Char
  | [] => []
  | c :: cs => (if upper then c.toUpper else c.toLower) :: canonicalFrom (c = '-') cs

/-- `http.CanonicalHeaderKey`.  A key that is not a field name stays as it is. -/
def canonicalHeaderKey (key : String) : String :=
  if key.toList.all isTokenChar then String.ofList (canonicalFrom true key.toList) else key

/-- Every key of the map is canonical. -/
def Header.Canonical (h : Header) : Prop :=
  ∀ key, (h.lookup key).isSome → canonicalHeaderKey key = key

/-- `Header.Add`. -/
def Header.add (h : Header) (key value : String) : Header :=
  h.insert (canonicalHeaderKey key) (h.values (canonicalHeaderKey key) ++ [value])

/-! ## The two filters -/

/- Two letters outside ASCII are an ASCII letter in lower case, the Kelvin sign and the dotted
capital I, and two fold to one, the Kelvin sign and the long s.  No other letter outside ASCII
makes a difference to a comparison with an ASCII name. -/

/-- `unicode.ToLower`. -/
def lowerRune (c : Char) : Char :=
  if c = '\u212a' then 'k' else if c = '\u0130' then 'i' else c.toLower

/-- `strings.ToLower`. -/
def toLower (s : String) : String := String.ofList (s.toList.map lowerRune)

/-- One letter for all that `unicode.SimpleFold` equates. -/
def foldRune (c : Char) : Char :=
  if c = '\u212a' then 'k' else if c = '\u017f' then 's' else c.toLower

/-- `strings.EqualFold`. -/
def equalFold (s t : String) : Bool := s.toList.map foldRune = t.toList.map foldRune

def isHopByHop (key : String) : Bool :=
  toLower key ∈ ["connection", "keep-alive", "proxy-authenticate", "proxy-authorization", "te",
    "trailer", "transfer-encoding", "upgrade"]

/-- The test of `forwardHeaders`. -/
def skipsRequest (key : String) : Bool :=
  isHopByHop key || equalFold key "Host" || equalFold key "Content-Length"

def forwardHeaders (order : GoMap.RangeOrder String (List String)) (h : Header) : Header :=
  (order.visit h).foldl (fun out x => if skipsRequest x.1 then out else out.insert x.1 x.2) ∅

def copyHeaders (order : GoMap.RangeOrder String (List String)) (dst src : Header) : Header :=
  (order.visit src).foldl (fun dst x =>
    if isHopByHop x.1 then dst else x.2.foldl (fun dst value => dst.add x.1 value) dst) dst

/-! ## End-to-end fields -/

/-- Optional whitespace. -/
def isOWS (c : Char) : Bool := c = ' ' || c = '\t'

def trimOWS (s : List Char) : List Char := ((s.dropWhile isOWS).reverse.dropWhile isOWS).reverse

/-- The tokens of a list that is separated by commas. -/
def tokens (value : String) : List String :=
  ((value.toList.splitOn ',').map fun s => String.ofList (trimOWS s)).filter isToken

/-- Names of fields are the same in any case. -/
def sameName (a b : String) : Bool := a.toList.map Char.toLower = b.toList.map Char.toLower

/-- A token of the message's own `Connection` header names the field. -/
def Header.Nominates (h : Header) (key : String) : Prop :=
  ∃ token ∈ (h.values "Connection").flatMap tokens, sameName token key = true

instance (h : Header) (key : String) : Decidable (h.Nominates key) :=
  inferInstanceAs (Decidable (∃ token ∈ (h.values "Connection").flatMap tokens, _))

/-- The field is hop-by-hop in this message: one of the standard set, or nominated. -/
def Header.HopByHop (h : Header) (key : String) : Prop := isHopByHop key = true ∨ h.Nominates key

instance (h : Header) (key : String) : Decidable (h.HopByHop key) :=
  inferInstanceAs (Decidable (_ ∨ _))

/-- The request direction forwards exactly the end-to-end fields other than `Host` and
`Content-Length`, with their values in order. -/
def ForwardsEndToEnd (order : GoMap.RangeOrder String (List String)) (h : Header) : Prop :=
  ∀ key, (forwardHeaders order h).values key =
    if h.HopByHop key ∨ equalFold key "Host" ∨ equalFold key "Content-Length" then []
    else h.values key

/-- The response direction adds exactly the end-to-end fields, with their values in order. -/
def CopiesEndToEnd (order : GoMap.RangeOrder String (List String)) (dst src : Header) : Prop :=
  ∀ key, (copyHeaders order dst src).values key =
    dst.values key ++ if src.HopByHop key then [] else src.values key

/-- A filter skips every field that the message nominates. -/
def Header.Covered (h : Header) (skips : String → Bool) : Prop :=
  ∀ key, h.values key ≠ [] → h.Nominates key → skips key = true

/-! ## What the filters do -/

theorem values_insert (h : Header) (key key' : String) (values : List String) :
    Header.values (h.insert key values) key' = if key' = key then values else h.values key' := by
  rw [Header.values, GoMap.lookup_insert_eq]
  split <;> rfl

/-- A field with values is a key of the map. -/
theorem mem_keys_of_values {h : Header} {key : String} (hvalue : h.values key ≠ []) :
    key ∈ h.keys := by
  rw [Finmap.mem_keys]
  by_contra hnot
  simp [Header.values, Finmap.lookup_eq_none.mpr hnot] at hvalue

theorem canonical_of_keys {h : Header} (hkeys : ∀ key ∈ h.keys, canonicalHeaderKey key = key) :
    h.Canonical :=
  fun key hkey => hkeys key (Finmap.mem_keys.mpr (Finmap.lookup_isSome.mp hkey))

theorem covered_of_keys {h : Header} {skips : String → Bool}
    (hkeys : ∀ key ∈ h.keys, h.Nominates key → skips key = true) : h.Covered skips :=
  fun key hvalue => hkeys key (mem_keys_of_values hvalue)

/-- Forwarding field after field sets those that are not skipped. -/
theorem lookup_foldl_forward {l : List (Σ _ : String, List String)} (hl : l.NodupKeys)
    (out : Header) (key : String) :
    (l.foldl (fun out x => if skipsRequest x.1 then out else out.insert x.1 x.2) out).lookup key =
      if skipsRequest key then out.lookup key else (l.dlookup key).or (out.lookup key) := by
  induction l generalizing out with
  | nil => simp
  | cons x l ih =>
      obtain ⟨k, vs⟩ := x
      rw [List.nodupKeys_cons] at hl
      rw [List.foldl_cons, ih hl.2]
      by_cases hkey : key = k
      · subst hkey
        by_cases hskip : skipsRequest key
        · simp [hskip]
        · simp [hskip, List.dlookup_eq_none.mpr hl.1]
      · rw [List.dlookup_cons_ne _ _ hkey]
        by_cases hskip : skipsRequest k
        · simp [hskip]
        · simp [hskip, hkey]

/-- **The request direction keeps every key that its test does not skip.** -/
theorem lookup_forwardHeaders (order : GoMap.RangeOrder String (List String)) (h : Header)
    (key : String) :
    (forwardHeaders order h).lookup key = if skipsRequest key then none else h.lookup key := by
  rw [forwardHeaders, lookup_foldl_forward (order.nodup_keys_visit h), order.dlookup_visit]
  simp

/-- A forwarded field has its values, unless it is skipped. -/
theorem values_forwardHeaders (order : GoMap.RangeOrder String (List String)) (h : Header)
    (key : String) :
    (forwardHeaders order h).values key = if skipsRequest key then [] else h.values key := by
  rw [Header.values, lookup_forwardHeaders]
  split <;> rfl

/-- The inner loop appends the values under its key. -/
theorem values_foldl_add {k : String} (hk : canonicalHeaderKey k = k) (values : List String)
    (dst : Header) (key : String) :
    Header.values (values.foldl (fun dst value => dst.add k value) dst) key =
      dst.values key ++ if key = k then values else [] := by
  induction values generalizing dst with
  | nil => simp
  | cons value values ih =>
      rw [List.foldl_cons, ih, Header.add, hk, values_insert]
      by_cases hkey : key = k
      · simp [hkey]
      · simp [hkey]

/-- Copying field after field adds the values of those that are not hop-by-hop. -/
theorem values_foldl_copy {l : List (Σ _ : String, List String)} (hl : l.NodupKeys)
    (hcanon : ∀ x ∈ l, canonicalHeaderKey x.1 = x.1) (dst : Header) (key : String) :
    Header.values (l.foldl (fun dst x => if isHopByHop x.1 then dst
      else x.2.foldl (fun dst value => dst.add x.1 value) dst) dst) key =
        dst.values key ++ if isHopByHop key then [] else (l.dlookup key).getD [] := by
  induction l generalizing dst with
  | nil => simp
  | cons x l ih =>
      obtain ⟨k, vs⟩ := x
      rw [List.nodupKeys_cons] at hl
      rw [List.forall_mem_cons] at hcanon
      rw [List.foldl_cons, ih hl.2 hcanon.2]
      by_cases hkey : key = k
      · subst hkey
        by_cases hhop : isHopByHop key
        · simp [hhop]
        · simp [hhop, values_foldl_add hcanon.1, List.dlookup_eq_none.mpr hl.1]
      · rw [List.dlookup_cons_ne _ _ hkey]
        by_cases hhop : isHopByHop k
        · simp [hhop]
        · simp [hhop, values_foldl_add hcanon.1, hkey]

/-- **The response direction appends the values of every key that its test does not skip.** -/
theorem values_copyHeaders (order : GoMap.RangeOrder String (List String)) (dst : Header)
    {src : Header} (hcanon : src.Canonical) (key : String) :
    (copyHeaders order dst src).values key =
      dst.values key ++ if isHopByHop key then [] else src.values key := by
  have hkeys : ∀ x ∈ order.visit src, canonicalHeaderKey x.1 = x.1 := by
    intro x hx
    exact hcanon x.1 (by simp [order.mem_visit.mp hx])
  rw [copyHeaders, values_foldl_copy (order.nodup_keys_visit src) hkeys, order.dlookup_visit]
  rfl

/-! ## Exactly the end-to-end fields -/

/-- A filter that skips more fields than another agrees with it iff those have no value. -/
theorem skip_eq_iff {skips : Bool} {nominated : Prop} [Decidable nominated]
    {values : List String} :
    (if skips then [] else values) = (if skips = true ∨ nominated then [] else values) ↔
      (values ≠ [] → nominated → skips = true) := by
  cases skips with
  | true => simp
  | false =>
      by_cases hnominated : nominated
      · simp [hnominated]
      · simp [hnominated]

/-- `forwardHeaders` forwards end-to-end fields only exactly when it skips all that are nominated.
-/
theorem forwardsEndToEnd_iff {order : GoMap.RangeOrder String (List String)} {h : Header} :
    ForwardsEndToEnd order h ↔ h.Covered skipsRequest := by
  unfold ForwardsEndToEnd Header.Covered
  refine forall_congr' fun key => ?_
  have hskips : (h.HopByHop key ∨ equalFold key "Host" ∨ equalFold key "Content-Length") ↔
      (skipsRequest key = true ∨ h.Nominates key) := by
    simp only [Header.HopByHop, skipsRequest, Bool.or_eq_true]
    tauto
  rw [values_forwardHeaders, if_congr hskips rfl rfl]
  exact skip_eq_iff

/-- `CopyHeaders` copies end-to-end fields only exactly when all nominated fields are in its list.
-/
theorem copiesEndToEnd_iff {order : GoMap.RangeOrder String (List String)} {dst src : Header}
    (hcanon : src.Canonical) : CopiesEndToEnd order dst src ↔ src.Covered isHopByHop := by
  unfold CopiesEndToEnd Header.Covered
  refine forall_congr' fun key => ?_
  rw [values_copyHeaders order dst hcanon, List.append_cancel_left_eq]
  exact skip_eq_iff

/-- **Exactly the end-to-end fields cross the proxy, in each direction, when its fixed list covers
every field that the message nominates.** -/
theorem endToEnd_iff (order : GoMap.RangeOrder String (List String)) (dst : Header) {h : Header}
    (hcanon : h.Canonical) :
    (ForwardsEndToEnd order h ↔ h.Covered skipsRequest) ∧
      (CopiesEndToEnd order dst h ↔ h.Covered isHopByHop) :=
  ⟨forwardsEndToEnd_iff, copiesEndToEnd_iff hcanon⟩

namespace Sample

/-- A message that nominates its own session token. -/
def nominating : Header :=
  (Finmap.insert "Connection" ["keep-alive, X-Session-Token"] ∅).insert "X-Session-Token" ["secret"]

/-- The header map of `TestCopyHeadersStripsHopByHop`. -/
def testHeaders : Header :=
  (((((Finmap.insert "Content-Type" ["application/json"] ∅).insert "X-Custom" ["a", "b"]).insert
    "Transfer-Encoding" ["chunked"]).insert "Connection" ["keep-alive"]).insert
      "Keep-Alive" ["timeout=5"]).insert "Upgrade" ["h2c"]

end Sample

open Sample

/-- The message of the test crosses in both directions, in every order. -/
theorem endToEnd_testHeaders :
    testHeaders.Canonical ∧ ∀ order,
      ForwardsEndToEnd order testHeaders ∧ CopiesEndToEnd order ∅ testHeaders := by
  have hcanon : testHeaders.Canonical := canonical_of_keys (by decide)
  refine ⟨hcanon, fun order => ?_⟩
  have hiff := endToEnd_iff order ∅ hcanon
  exact ⟨hiff.1.mpr (covered_of_keys (by decide)), hiff.2.mpr (covered_of_keys (by decide))⟩

/-- A field that the message nominates crosses in both directions. -/
theorem nominated_crosses :
    nominating.Canonical ∧ nominating.HopByHop "X-Session-Token" ∧ ∀ order,
      ((forwardHeaders order nominating).values "X-Session-Token" = ["secret"] ∧
        ¬ ForwardsEndToEnd order nominating) ∧
      ((copyHeaders order ∅ nominating).values "X-Session-Token" = ["secret"] ∧
        ¬ CopiesEndToEnd order ∅ nominating) := by
  have hcanon : nominating.Canonical := canonical_of_keys (by decide)
  have hvalue : nominating.values "X-Session-Token" = ["secret"] := by decide
  have hcovered {skips : String → Bool} (hskip : skips "X-Session-Token" = false) :
      ¬ nominating.Covered skips := by
    intro h
    have htrue := h "X-Session-Token" (by decide) (by decide)
    rw [hskip] at htrue
    exact Bool.false_ne_true htrue
  refine ⟨hcanon, by decide, fun order => ⟨⟨?_, ?_⟩, ?_, ?_⟩⟩
  · rw [values_forwardHeaders, hvalue]
    decide
  · rw [forwardsEndToEnd_iff]
    exact hcovered (by decide)
  · rw [values_copyHeaders order ∅ hcanon, hvalue]
    decide
  · rw [copiesEndToEnd_iff hcanon]
    exact hcovered (by decide)

end KvRouter.Headers
