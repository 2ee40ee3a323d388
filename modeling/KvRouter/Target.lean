import KvRouter.Go
import KvRouter.Headers
import KvRouter.Lib.MultiMap
import KvRouter.Lib.Percent

/-!
# KvRouter.Target

The upstream request of `Forward`.  The handler hands it the parsed query of its
request, `upstreamURL` joins the paths and writes the query down again, and the
backend reads the request line.  It reads the path that was joined and the very
query that the router had read, and the header of the client (`forward_faithful`).
-/

namespace KvRouter.Target

open GoMap Headers Percent

/-! ## Queries -/

/-- A byte that stands for itself in every part of a URL. -/
def unreserved (c : UInt8) : Bool :=
  'a'.toUInt8 ≤ c ∧ c ≤ 'z'.toUInt8 ∨ 'A'.toUInt8 ≤ c ∧ c ≤ 'Z'.toUInt8 ∨
    '0'.toUInt8 ≤ c ∧ c ≤ '9'.toUInt8 ∨
    c ∈ ['-'.toUInt8, '_'.toUInt8, '.'.toUInt8, '~'.toUInt8]

/-- `encodeQueryComponent`. -/
def queryComponent : Mode where
  keep := unreserved
  plus := true
  keep_percent := by decide
  keep_plus _ := by decide
  keep_hex := by decide

/-- `encodePath`. -/
def pathMode : Mode where
  keep c := unreserved c ∨ c ∈ ['$'.toUInt8, '&'.toUInt8, '+'.toUInt8, ','.toUInt8, '/'.toUInt8,
    ':'.toUInt8, ';'.toUInt8, '='.toUInt8, '@'.toUInt8]
  plus := false
  keep_percent := by decide
  keep_plus h := by contradiction
  keep_hex := by decide

/-- A `url.Values`. -/
abbrev Values := GoMap Bytes (List Bytes)

/-- The errors of `ParseQuery`. -/
inductive QueryError
  | tooMany
  | semicolon
  | escape
deriving DecidableEq

/-- `strings.Cut`, without the report whether the separator was found. -/
def cut (sep : UInt8) (s : Bytes) : Bytes × Bytes :=
  (s.takeWhile (· ≠ sep), (s.dropWhile (· ≠ sep)).tail)

/-- The key and the value of one part of a query; an empty part has none. -/
def parsePart (part : Bytes) : Except QueryError (Option (Bytes × Bytes)) :=
  if ';'.toUInt8 ∈ part then .error .semicolon
  else if part = [] then .ok none
  else
    let (key, value) := cut '='.toUInt8 part
    match queryComponent.unescape key, queryComponent.unescape value with
    | some key, some value => .ok (some (key, value))
    | _, _ => .error .escape

/-- The error to report once `e` has come up; a bad escape does not replace another error. -/
def QueryError.over (err : Option QueryError) (e : QueryError) : Option QueryError :=
  if e = .escape then err.or (some e) else some e

/-- The loop of `parseQuery`, on the parts between the ampersands. -/
def parseParts : List Bytes → Values → Option QueryError → Values × Option QueryError
  | [], m, err => (m, err)
  | part :: parts, m, err =>
      match parsePart part with
      | .error e => parseParts parts m (e.over err)
      | .ok none => parseParts parts m err
      | .ok (some (key, value)) => parseParts parts (add m key value) err

/-- The most parameters of a query. -/
def defaultMaxParams : ℕ := 10000

/-- `ParseQuery`. -/
def parseQuery (query : Bytes) : Values × Option QueryError :=
  if query.count '&'.toUInt8 + 1 > defaultMaxParams then (∅, some .tooMany)
  else parseParts (query.splitOn '&'.toUInt8) ∅ none

/-- `URL.Query`. -/
def query (rawQuery : Bytes) : Values := (parseQuery rawQuery).1

/-- `sort.Strings`. -/
def sortStrings (keys : List Bytes) : List Bytes :=
  keys.mergeSort fun a b => a.map UInt8.toNat ≤ b.map UInt8.toNat

/-- What `Values.Encode` writes for one value of a key. -/
def encodePair (p : Bytes × Bytes) : Bytes :=
  queryComponent.escape p.1 ++ '='.toUInt8 :: queryComponent.escape p.2

/-- A round of the loops of `Values.Encode`. -/
def encodeStep (buf : Bytes) (p : Bytes × Bytes) : Bytes :=
  (if buf.length > 0 then buf ++ ['&'.toUInt8] else buf) ++ encodePair p

/-- `Values.Encode`. -/
def encode (order : RangeOrder Bytes (List Bytes)) (v : Values) : Bytes :=
  (pairs v (sortStrings ((order.visit v).map Sigma.fst))).foldl encodeStep []

/-! ## Upstream URLs -/

/-- The parts of a `url.URL` that the request line is made of. -/
structure URL where
  path : Bytes
  rawPath : Bytes
  rawQuery : Bytes
  forceQuery : Bool
deriving DecidableEq

def trimLeft (s : Bytes) : Bytes := s.dropWhile (· = '/'.toUInt8)

def trimRight (s : Bytes) : Bytes := (s.reverse.dropWhile (· = '/'.toUInt8)).reverse

/-- `upstreamURL`, on the parsed base URL. -/
def upstreamURL (order : RangeOrder Bytes (List Bytes)) (base : URL) (path : Bytes) (v : Values) :
    URL :=
  { base with
    path := trimRight base.path ++ '/'.toUInt8 :: trimLeft path
    rawQuery := encode order v }

/-- `validEncoded`, for a path. -/
def validEncoded (s : Bytes) : Bool :=
  s.all fun c => c ∈ "!$&'()*+,;=:@[]%".toList.map Char.toUInt8 ∨ pathMode.keep c

/-- `URL.EscapedPath`. -/
def URL.escapedPath (u : URL) : Bytes :=
  if u.rawPath ≠ [] ∧ validEncoded u.rawPath ∧ pathMode.unescape u.rawPath = some u.path then
    u.rawPath
  else if u.path = ['*'.toUInt8] then ['*'.toUInt8]
  else pathMode.escape u.path

/-- The target in the request line. -/
def URL.requestURI (u : URL) : Bytes :=
  u.escapedPath ++ if u.forceQuery ∨ u.rawQuery ≠ [] then '?'.toUInt8 :: u.rawQuery else []

/-- `Header.Get`, of a canonical key. -/
def get (h : Header) (key : String) : String := (h.values key).headD ""

/-- The request that `Forward` sends, a POST. -/
structure UpstreamRequest where
  target : Bytes
  header : Header
  body : Bytes

/-- `Forward`, up to the call of the client. -/
def forward (order : RangeOrder Bytes (List Bytes)) (headerOrder : RangeOrder String (List String))
    (base : URL) (body path : Bytes) (v : Values) (headers : Header) : UpstreamRequest where
  target := (upstreamURL order base path v).requestURI
  header :=
    let header := forwardHeaders headerOrder headers
    if get header "Content-Type" = "" then header.insert "Content-Type" ["application/json"]
    else header
  body := body

/-- What the backend reads from a target: the path, the query and what was wrong with it. -/
def readTarget (target : Bytes) : Option (Bytes × Values × Option QueryError) :=
  (pathMode.unescape (cut '?'.toUInt8 target).1).map fun path =>
    (path, parseQuery (cut '?'.toUInt8 target).2)

/-! ## Parts -/

/-- An escaped text has unreserved bytes, percent signs and pluses only. -/
theorem unreserved_of_mem_escape {s : Bytes} {c : UInt8} (h : c ∈ queryComponent.escape s) :
    unreserved c = true ∨ c = '%'.toUInt8 ∨ c = '+'.toUInt8 := by
  obtain hkeep | hpercent | ⟨-, hplus⟩ := mem_escape queryComponent h
  · exact Or.inl hkeep
  · exact Or.inr (Or.inl hpercent)
  · exact Or.inr (Or.inr hplus)

/-- A separator does not occur in an escaped component. -/
theorem not_mem_escape {c : UInt8}
    (hc : unreserved c = false ∧ c ≠ '%'.toUInt8 ∧ c ≠ '+'.toUInt8) (s : Bytes) :
    c ∉ queryComponent.escape s := by
  intro h
  obtain hkeep | hpercent | hplus := unreserved_of_mem_escape h
  · simp [hc.1] at hkeep
  · exact hc.2.1 hpercent
  · exact hc.2.2 hplus

theorem not_mem_encodePair {c : UInt8}
    (hc : unreserved c = false ∧ c ≠ '%'.toUInt8 ∧ c ≠ '+'.toUInt8) (heq : c ≠ '='.toUInt8)
    (p : Bytes × Bytes) : c ∉ encodePair p := by
  simp [encodePair, not_mem_escape hc, heq]

theorem cut_cons {sep c : UInt8} (hc : c ≠ sep) (s : Bytes) :
    cut sep (c :: s) = (c :: (cut sep s).1, (cut sep s).2) := by
  simp [cut, hc]

/-- A text is cut at the first separator. -/
theorem cut_append {sep : UInt8} {s : Bytes} (hs : sep ∉ s) (t : Bytes) :
    cut sep (s ++ sep :: t) = (s, t) := by
  induction s with
  | nil => simp [cut]
  | cons c s ih =>
      rw [List.mem_cons, not_or] at hs
      rw [List.cons_append, cut_cons (Ne.symm hs.1), ih hs.2]

/-- A text without separator is its own first part. -/
theorem cut_of_not_mem {sep : UInt8} {s : Bytes} (hs : sep ∉ s) : cut sep s = (s, []) := by
  induction s with
  | nil => rfl
  | cons c s ih =>
      rw [List.mem_cons, not_or] at hs
      rw [cut_cons (Ne.symm hs.1), ih hs.2]

/-- A pair reads back as it was. -/
theorem parsePart_encodePair (p : Bytes × Bytes) : parsePart (encodePair p) = .ok (some p) := by
  have hsemicolon : ';'.toUInt8 ∉ encodePair p := not_mem_encodePair (by decide) (by decide) p
  have hne : encodePair p ≠ [] := by simp [encodePair]
  have hcut : cut '='.toUInt8 (encodePair p) =
      (queryComponent.escape p.1, queryComponent.escape p.2) :=
    cut_append (not_mem_escape (by decide) p.1) _
  simp [parsePart, hsemicolon, hne, hcut, unescape_escape]

/-- Parsing encoded pairs adds them all, without an error. -/
theorem parseParts_encode (l : List (Bytes × Bytes)) (m : Values) :
    parseParts (l.map encodePair) m none = (addAll m l, none) := by
  induction l generalizing m with
  | nil => rfl
  | cons p l ih =>
      rw [List.map_cons, parseParts, parsePart_encodePair]
      exact ih _

/-- What the loop accepts of some parts. -/
theorem parseParts_eq (parts : List Bytes) (m : Values) (err : Option QueryError) :
    ∃ l, (parseParts parts m err).1 = addAll m l ∧ l.length ≤ parts.length := by
  induction parts generalizing m err with
  | nil => exact ⟨[], rfl, Nat.le_refl _⟩
  | cons part parts ih =>
      rw [parseParts]
      split
      · obtain ⟨l, hl, hlength⟩ := ih m _
        exact ⟨l, hl, Nat.le_succ_of_le hlength⟩
      · obtain ⟨l, hl, hlength⟩ := ih m err
        exact ⟨l, hl, Nat.le_succ_of_le hlength⟩
      · next key value _ =>
          obtain ⟨l, hl, hlength⟩ := ih (add m key value) err
          exact ⟨(key, value) :: l, hl, Nat.succ_le_succ hlength⟩

/-- A text has one part more than separators. -/
theorem length_splitOn (sep : UInt8) (s : Bytes) : (s.splitOn sep).length = s.count sep + 1 := by
  induction s with
  | nil => rfl
  | cons c s ih =>
      rw [List.splitOn_cons_eq_if_modifyHead, List.count_cons]
      split <;> simp [ih]

/-- What `URL.Query` returns was filled with as many pairs as a query may have. -/
theorem query_eq (rawQuery : Bytes) :
    ∃ l, query rawQuery = addAll ∅ l ∧ l.length ≤ defaultMaxParams := by
  unfold query parseQuery
  split
  · exact ⟨[], rfl, Nat.zero_le _⟩
  · next hmax =>
      obtain ⟨l, hl, hlength⟩ := parseParts_eq (rawQuery.splitOn '&'.toUInt8) ∅ none
      rw [length_splitOn] at hlength
      exact ⟨l, hl, by omega⟩

/-! ## The round trip of a query -/

theorem intercalate_append (sep : UInt8) (s t : Bytes) (l : List Bytes) :
    [sep].intercalate ((s ++ t) :: l) = s ++ [sep].intercalate (t :: l) := by
  cases l <;> simp [List.intercalate_cons_cons]

/-- Encoding pair after pair joins them to what was written. -/
theorem foldl_encodeStep {buf : Bytes} (hbuf : buf ≠ []) (l : List (Bytes × Bytes)) :
    l.foldl encodeStep buf = ['&'.toUInt8].intercalate (buf :: l.map encodePair) := by
  induction l generalizing buf with
  | nil => simp
  | cons p l ih =>
      have hstep : encodeStep buf p = buf ++ ['&'.toUInt8] ++ encodePair p := by
        simp [encodeStep, List.length_pos_iff.mpr hbuf]
      rw [List.foldl_cons, ih (by simp [hstep, hbuf]), hstep, intercalate_append, List.map_cons,
        List.intercalate_cons_cons]

/-- Encoding joins the encoded pairs. -/
theorem encode_eq (l : List (Bytes × Bytes)) :
    l.foldl encodeStep [] = ['&'.toUInt8].intercalate (l.map encodePair) := by
  cases l with
  | nil => rfl
  | cons p l =>
      have hne : encodePair p ≠ [] := by simp [encodePair]
      exact foldl_encodeStep hne l

/-- **What `Encode` writes is read as it was.** -/
theorem parseQuery_encode {l : List (Bytes × Bytes)} (hl : l.length ≤ defaultMaxParams) :
    parseQuery (l.foldl encodeStep []) = (addAll ∅ l, none) := by
  by_cases hnil : l = []
  · subst hnil
    decide
  · have hparts : (l.foldl encodeStep []).splitOn '&'.toUInt8 = l.map encodePair := by
      rw [encode_eq]
      refine List.splitOn_intercalate _ (fun part hpart => ?_) (by simpa using hnil)
      obtain ⟨p, -, rfl⟩ := List.mem_map.mp hpart
      exact not_mem_encodePair (by decide) (by decide) p
    have hcount := length_splitOn '&'.toUInt8 (l.foldl encodeStep [])
    rw [hparts, List.length_map] at hcount
    rw [parseQuery, if_neg (by omega), hparts, parseParts_encode]

theorem nodup_sortStrings {keys : List Bytes} (h : keys.Nodup) : (sortStrings keys).Nodup :=
  (List.mergeSort_perm keys _).nodup_iff.mpr h

/-- **A query that was read is written down so that it reads the same.** -/
theorem query_roundtrip (order : RangeOrder Bytes (List Bytes)) (rawQuery : Bytes) :
    parseQuery (encode order (query rawQuery)) = (query rawQuery, none) := by
  obtain ⟨l, hl, hmax⟩ := query_eq rawQuery
  rw [hl, encode]
  let keys := sortStrings ((order.visit (addAll ∅ l)).map Sigma.fst)
  have hnodup : keys.Nodup := nodup_sortStrings (order.nodup_keys_visit _)
  have hkeys : ∀ p ∈ l, p.1 ∈ keys := fun p hp => by
    obtain ⟨values, hvalues⟩ := Option.ne_none_iff_exists'.mp (lookup_addAll_ne_none hp)
    have hvisit := order.mem_visit.mpr hvalues
    exact (List.mergeSort_perm _ _).mem_iff.mpr (List.mem_map_of_mem hvisit)
  have hlength : (pairs (addAll ∅ l) keys).length ≤ defaultMaxParams :=
    (perm_pairs hnodup hkeys).length_eq.trans_le hmax
  rw [parseQuery_encode hlength, addAll_pairs hnodup hkeys]

/-! ## The target -/

/-- The escaped path is read as the path. -/
theorem unescape_escapedPath (u : URL) : pathMode.unescape u.escapedPath = some u.path := by
  unfold URL.escapedPath
  split
  · next hraw => exact hraw.2.2
  · split
    · next hstar => rw [hstar]; decide
    · exact unescape_escape pathMode u.path

/-- A question mark in a path is escaped. -/
theorem question_not_mem_escapedPath (u : URL) : '?'.toUInt8 ∉ u.escapedPath := by
  unfold URL.escapedPath
  split
  · next hraw =>
      intro hmem
      have hvalid := List.all_eq_true.mp hraw.2.1 _ hmem
      revert hvalid
      decide
  · split
    · decide
    · intro hmem
      obtain hkeep | hpercent | ⟨hplus, -⟩ := mem_escape pathMode hmem
      · revert hkeep
        decide
      · revert hpercent
        decide
      · contradiction

/-- A request URI is cut into the escaped path and the raw query. -/
theorem cut_requestURI (u : URL) : cut '?'.toUInt8 u.requestURI = (u.escapedPath, u.rawQuery) := by
  unfold URL.requestURI
  split
  · exact cut_append (question_not_mem_escapedPath u) _
  · next hnone =>
      have hquery : u.rawQuery = [] := by simpa using fun h => hnone (Or.inr h)
      rw [List.append_nil, cut_of_not_mem (question_not_mem_escapedPath u), hquery]

/-- **The request line of `Forward`** is read as the joined path and the same query, without an
error. -/
theorem readTarget_upstreamURL (order : RangeOrder Bytes (List Bytes)) (base : URL)
    (path rawQuery : Bytes) :
    readTarget (upstreamURL order base path (query rawQuery)).requestURI =
      some (trimRight base.path ++ '/'.toUInt8 :: trimLeft path, query rawQuery, none) := by
  rw [readTarget, cut_requestURI, unescape_escapedPath, Option.map_some]
  exact congrArg (fun r => some (_, r)) (query_roundtrip order rawQuery)

/-! ## The request -/

/-- What a request with the path, query and headers of the client comes to at the backend. -/
structure Faithful (base : URL) (body path rawQuery : Bytes) (headers : Header)
    (r : UpstreamRequest) : Prop where
  /-- its path joined to the base URL's by one slash, and its query, in which nothing is wrong -/
  target : readTarget r.target =
    some (trimRight base.path ++ '/'.toUInt8 :: trimLeft path, query rawQuery, none)
  fields : ∀ key ≠ "Content-Type",
    r.header.values key = if skipsRequest key then [] else headers.values key
  contentType : r.header.values "Content-Type" =
    if get headers "Content-Type" = "" then ["application/json"] else headers.values "Content-Type"
  body : r.body = body

/-- **The backend reads what the router read**: the query key by key with the values in order,
whatever was wrong with the client's, and whatever the base URL is. -/
theorem forward_faithful (order : RangeOrder Bytes (List Bytes))
    (headerOrder : RangeOrder String (List String)) (base : URL) (body path rawQuery : Bytes)
    (headers : Header) : Faithful base body path rawQuery headers
      (forward order headerOrder base body path (query rawQuery) headers) := by
  have hkeep : skipsRequest "Content-Type" = false := by decide
  have hsame : get (forwardHeaders headerOrder headers) "Content-Type" =
      get headers "Content-Type" := by
    simp [get, values_forwardHeaders, hkeep]
  refine ⟨readTarget_upstreamURL order base path rawQuery, fun key hkey => ?_, ?_, rfl⟩
  · dsimp only [forward]
    split
    · rw [values_insert, if_neg hkey, values_forwardHeaders]
    · rw [values_forwardHeaders]
  · dsimp only [forward]
    rw [hsame]
    split
    · simp [values_insert]
    · simp [values_forwardHeaders, hkeep]

end KvRouter.Target
