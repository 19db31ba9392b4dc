import CppExamples.HttpTest.HttpClosing

/-! # The close decision and the rule of HTTP

`http_request_close_connection` looks at the first header whose name begins with
`Connection`, compares it with `Keep-Alive` whether it was found or not, and takes
the value 1 of `strncmp` alone for a difference.  The rule is about the headers that
have the name `Connection`, and about every difference.
-/
namespace CppExamples.HttpTest
open Memory Search

/-- A header with the name `Connection` whose value begins with the word. -/
def SomeConnection (httpRequest : HttpRequest) (word : List Byte) : Prop :=
  ∃ header ∈ httpRequest.requestHeaders, header.1 = ascii "Connection" ∧ word <+: header.2

/-- The rule: `close` always ends a connection, and HTTP/1.0 ends it unless it is to be
kept alive. -/
def CloseIsDue (httpRequest : HttpRequest) : Prop :=
  SomeConnection httpRequest close ∨ (IsHttp10 httpRequest ∧ ¬ SomeConnection httpRequest keepAlive)

def DecidesByRule (difference : CharDifference) (httpRequest : HttpRequest) : Prop :=
  ∃ b, httpRequestCloseConnection difference httpRequest = some b ∧
    (b = true ↔ CloseIsDue httpRequest)

/-- What the first header found must be for the headers named `Connection`. -/
def HeaderDecides (difference : CharDifference) (httpRequest : HttpRequest)
    (connection : List Byte) : Prop :=
  (¬ IsHttp10 httpRequest ∧ (close <+: connection ↔ SomeConnection httpRequest close)) ∨
    (IsHttp10 httpRequest ∧
      (close <+: connection ∨ strncmp difference connection keepAlive keepAlive.length = 1) ∧
      (SomeConnection httpRequest close ∨ ¬ SomeConnection httpRequest keepAlive)) ∨
    (IsHttp10 httpRequest ∧
      ¬ close <+: connection ∧ strncmp difference connection keepAlive keepAlive.length ≠ 1 ∧
      SomeConnection httpRequest keepAlive ∧ ¬ SomeConnection httpRequest close)

theorem someConnection_of_none {httpRequest : HttpRequest}
    (h : connectionHeader httpRequest = none) (word : List Byte) :
    ¬ SomeConnection httpRequest word := by
  rintro ⟨header,hmem,hname,-⟩
  have hfind := List.find?_eq_none.mp (Option.map_eq_none_iff.mp h) header hmem
  rw [hname] at hfind
  exact hfind (by simp)

def http10Get : List Byte := ascii "GET / HTTP/1.0\r\n\r\n"

def upgradeGet : List Byte := ascii "GET / HTTP/1.0\r\nConnection: Upgrade\r\n\r\n"

end CppExamples.HttpTest
