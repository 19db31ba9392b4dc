import CppExamples.HttpTest.HttpClosing

/-! # Looking up a header

`http_request_get_header` compares as many characters as the key has, so that it stops at
the first header whose name begins with the key.  That is the header with this name just
when no longer name comes first, and the close decision is made on what it finds.
-/
namespace CppExamples.HttpTest
open Memory Search

def headerIndex (difference : CharDifference) (httpRequest : HttpRequest) (key : List Byte) : Option ℕ :=
  httpRequest.requestHeaders.findIdx? fun header => strncmp difference header.1 key key.length = 0

def namedIndex (httpRequest : HttpRequest) (key : List Byte) : Option ℕ :=
  httpRequest.requestHeaders.findIdx? fun header => header.1 = key

/-- The value returned is that of the first header named `key`, NULL is returned if there
is none, and no header with a longer name is found. -/
structure FindsHeader (difference : CharDifference) (httpRequest : HttpRequest) (key : List Byte) : Prop where
  first : headerIndex difference httpRequest key = namedIndex httpRequest key
  null : httpRequestGetHeader difference httpRequest key = none ↔
    ∀ header ∈ httpRequest.requestHeaders, header.1 ≠ key
  exact : ∀ (i : ℕ) (header : List Byte × List Byte), headerIndex difference httpRequest key = some i →
    httpRequest.requestHeaders[i]? = some header → header.1 = key

/-- The first header whose name begins with `key`, if any, has this name. -/
def FirstIsNamed (httpRequest : HttpRequest) (key : List Byte) : Prop :=
  ∀ header, httpRequest.requestHeaders.find? (fun header => key <+: header.1) = some header → header.1 = key

/-- The request without the headers whose names merely begin with `key`. -/
def withoutLonger (httpRequest : HttpRequest) (key : List Byte) : HttpRequest :=
  { httpRequest with
    requestHeaders := httpRequest.requestHeaders.filter fun header => ¬ (key <+: header.1 ∧ header.1 ≠ key) }

section Search
variable {α : Type*} {p q : α → Bool} {l : List α}

theorem findIdx?_eq_of_first (hqp : ∀ a, q a = true → p a = true)
    (hfirst : ∀ a, l.find? p = some a → q a = true) : l.findIdx? p = l.findIdx? q := by
  induction l with
  | nil => rfl
  | cons a l ih =>
    rw [List.findIdx?_cons, List.findIdx?_cons]
    cases hp : p a with
    | true =>
      have hq : q a = true := hfirst a (by rw [List.find?_cons, hp])
      rw [hq, if_pos rfl, if_pos rfl]
    | false =>
      have hq : q a = false := by
        rw [← Bool.not_eq_true]
        exact fun hq => by simp [hqp a hq] at hp
      rw [hq, ih fun b hb => hfirst b (by rw [List.find?_cons, hp]; exact hb)]

theorem find?_eq_of_first (hqp : ∀ a, q a = true → p a = true)
    (hfirst : ∀ a, l.find? p = some a → q a = true) : l.find? p = l.find? q := by
  rw [List.find?_eq_bind_findIdx?_getElem?, List.find?_eq_bind_findIdx?_getElem?,
    findIdx?_eq_of_first hqp hfirst]

end Search

variable {difference : CharDifference} {httpRequest : HttpRequest} {key : List Byte}

theorem headerIndex_eq (difference : CharDifference) (httpRequest : HttpRequest) (hkey : 0 ∉ key) :
    headerIndex difference httpRequest key =
      httpRequest.requestHeaders.findIdx? fun header => key <+: header.1 := by
  unfold headerIndex
  simp only [strncmp_eq_zero_iff difference hkey]

theorem getHeader_eq_index (difference : CharDifference) (httpRequest : HttpRequest) (key : List Byte) :
    httpRequestGetHeader difference httpRequest key =
      ((headerIndex difference httpRequest key).bind fun i => httpRequest.requestHeaders[i]?).map Prod.snd := by
  rw [httpRequestGetHeader, List.find?_eq_bind_findIdx?_getElem?]
  rfl

theorem prefix_of_named {header : List Byte × List Byte} (h : decide (header.1 = key) = true) :
    decide (key <+: header.1) = true := by
  rw [decide_eq_true_iff] at h ⊢
  exact h ▸ List.prefix_rfl

theorem findsHeader_iff (difference : CharDifference) (httpRequest : HttpRequest) (hkey : 0 ∉ key) :
    FindsHeader difference httpRequest key ↔ FirstIsNamed httpRequest key := by
  constructor
  · intro h header hheader
    rw [List.find?_eq_bind_findIdx?_getElem?, ← headerIndex_eq difference httpRequest hkey] at hheader
    obtain ⟨i,hi,hget⟩ := Option.bind_eq_some_iff.mp hheader
    exact h.exact i header hi hget
  · intro h
    have hindex : headerIndex difference httpRequest key = namedIndex httpRequest key := by
      rw [headerIndex_eq difference httpRequest hkey]
      exact findIdx?_eq_of_first (fun header => prefix_of_named) fun header hheader =>
        decide_eq_true (h header hheader)
    have hget : httpRequestGetHeader difference httpRequest key =
        (httpRequest.requestHeaders.find? fun header => header.1 = key).map Prod.snd := by
      rw [getHeader_eq_index, hindex, List.find?_eq_bind_findIdx?_getElem?]
      rfl
    refine ⟨hindex,?_,?_⟩
    · rw [hget, Option.map_eq_none_iff, List.find?_eq_none]
      simp
    · intro i header hi hheader
      rw [hindex] at hi
      obtain ⟨hlt,hname,-⟩ := List.findIdx?_eq_some_iff_getElem.mp hi
      rw [List.getElem?_eq_getElem hlt] at hheader
      exact Option.some.inj hheader ▸ of_decide_eq_true hname

theorem closeConnection_congr {r r' : HttpRequest} (hversion : r.version = r'.version)
    (hheader : connectionHeader r = connectionHeader r') :
    httpRequestCloseConnection difference r = httpRequestCloseConnection difference r' := by
  have hten : versionIsHttp10 difference r = versionIsHttp10 difference r' := by
    rw [versionIsHttp10, hversion, versionIsHttp10]
  unfold httpRequestCloseConnection
  rw [getHeader_connection, getHeader_connection, hheader, hten]

/-- Where the first header is the one named `Connection`, headers with longer names do not
matter. -/
theorem closeConnection_withoutLonger (difference : CharDifference)
    (h : FirstIsNamed httpRequest (ascii "Connection")) :
    httpRequestCloseConnection difference httpRequest =
      httpRequestCloseConnection difference (withoutLonger httpRequest (ascii "Connection")) := by
  refine closeConnection_congr rfl (congrArg (Option.map Prod.snd) ?_)
  have hnamed := find?_eq_of_first (fun header => prefix_of_named) fun header hheader =>
    decide_eq_true (h header hheader)
  rw [hnamed, withoutLonger, List.find?_filter]
  refine congrArg (fun test => httpRequest.requestHeaders.find? test) (funext fun header => ?_)
  by_cases hname : header.1 = ascii "Connection"
  · simp [hname]
  · simp [hname]

/-- In every list of headers, the header with the name is found and no longer name takes
part in the decision to close just when the first whose name begins with the key is that
header. -/
theorem header_lookup (difference : CharDifference) (httpRequest : HttpRequest) (hkey : 0 ∉ key) :
    (FindsHeader difference httpRequest key ∧ (key = ascii "Connection" →
      httpRequestCloseConnection difference httpRequest =
        httpRequestCloseConnection difference (withoutLonger httpRequest (ascii "Connection")))) ↔
      FirstIsNamed httpRequest key := by
  constructor
  · rintro ⟨hfinds,-⟩
    exact (findsHeader_iff difference httpRequest hkey).mp hfinds
  · intro hfirst
    refine ⟨(findsHeader_iff difference httpRequest hkey).mpr hfirst,?_⟩
    rintro rfl
    exact closeConnection_withoutLonger difference hfirst

def identifiedRequest : HttpRequest :=
  { httpRequestNew with requestHeaders := [(ascii "Connection-Id", ascii "1"), (ascii "Host", ascii "a")] }

theorem header_lookup_host :
    FindsHeader byteDifference identifiedRequest (ascii "Host") := by
  refine (header_lookup byteDifference identifiedRequest (show 0 ∉ ascii "Host" by decide)).mpr ?_ |>.1
  intro header hheader
  obtain rfl := Option.some.inj (show some (ascii "Host", ascii "a") = some header from hheader)
  rfl

def identifiedGet : List Byte := ascii "GET / HTTP/1.1\r\nConnection-Id: close\r\n\r\n"

/-- The request has no header named `Connection` and does not ask for a close. -/
theorem identifiedGet_closes :
    ∃ input' r, parseHttpRequest sampleLeftover 4 (holding identifiedGet) httpRequestNew =
        some (.returned 1 input' r) ∧
      ¬ FindsHeader byteDifference r (ascii "Connection") ∧
      httpRequestCloseConnection byteDifference r = some true ∧
      httpRequestCloseConnection byteDifference (withoutLonger r (ascii "Connection")) = some false := by
  refine ⟨_,_,rfl,?_,by decide,by decide⟩
  rintro ⟨hfirst,-,-⟩
  exact absurd hfirst (by decide)

end CppExamples.HttpTest
