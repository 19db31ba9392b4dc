import CppExamples.HttpTest.RequestLines

/-! # The blocks of the request line

Each field of the request line is copied into a block of its own, one cell larger than
its text.  The terminator goes one cell further than that: behind the block.  The cell
that was meant for it keeps what `malloc` left there, and whether the field reads as
its text depends on that cell.
-/
namespace CppExamples.HttpTest
open Memory Search

/-- A field of the request line: the cells that are allocated and those that are
written, in order. -/
structure FieldStore where
  allocated : ℕ
  writes : List (ℕ × Byte)

/-- `malloc(size + 1)`, the copy of `size` characters, and the terminator. -/
def storeField (text : List Byte) : FieldStore where
  allocated := text.length + 1
  writes := runFrom 0 (cString text ++ List.replicate (text.length - (cString text).length) 0) ++
    [(text.length + 1, 0)]

structure LineStores where
  method : FieldStore
  url : FieldStore
  version : FieldStore

/-- The blocks that `process_status_line` allocates and writes; no result when an
assertion fails. -/
def storeLine (line : List Byte) : Option LineStores :=
  (find [32] line).bind fun methodSize =>
    let start := line.drop (methodSize + 1)
    (find [32] start).map fun urlSize =>
      { method := storeField (line.take methodSize)
        url := storeField (start.take urlSize)
        version := storeField (start.drop (urlSize + 1)) }

namespace FieldStore

def Inside (field : FieldStore) : Prop := ∀ w ∈ field.writes, w.1 < field.allocated

def block (field : FieldStore) (leftover : ℕ → Byte) : ℕ → Byte := write leftover field.writes

end FieldStore

/-- The memory read as a C string is the text. -/
structure ReadsAs (block : ℕ → Byte) (text : List Byte) : Prop where
  chars : load block 0 text.length = text
  terminated : block text.length = 0
  noNul : 0 ∉ text

theorem storeField_block (text : List Byte) (leftover : ℕ → Byte) :
    (storeField text).block leftover = fieldBlock leftover text := by
  rw [FieldStore.block, storeField, write_append, write_runFrom]
  rfl

theorem not_inside (text : List Byte) : ¬ (storeField text).Inside := by
  intro h
  have hlast : (text.length + 1, (0 : Byte)) ∈ (storeField text).writes :=
    List.mem_append_right _ List.mem_cons_self
  exact lt_irrefl _ (h _ hlast)

theorem readsAs_iff {text : List Byte} (hnul : 0 ∉ text) (leftover : ℕ → Byte) :
    ReadsAs ((storeField text).block leftover) text ↔ leftover text.length = 0 := by
  have hcopy : strncpy leftover text = store leftover 0 text := by
    simp [strncpy, cString_of_notMem hnul]
  have hcell : ((storeField text).block leftover) text.length = leftover text.length := by
    rw [storeField_block, fieldBlock, hcopy, Function.update_of_ne (Nat.lt_succ_self _).ne]
    exact store_apply_of_ge (by omega)
  constructor
  · intro h
    exact hcell.symm.trans h.terminated
  · intro hzero
    refine ⟨?_,hcell.trans hzero,hnul⟩
    have hchars : load ((storeField text).block leftover) 0 text.length =
        load (store leftover 0 text) 0 text.length := by
      apply load_congr
      intro i hi
      rw [storeField_block, fieldBlock, hcopy, Function.update_of_ne (by omega)]
    rw [hchars, load_store_self]

/-- What the request keeps of its line is the memory at these blocks. -/
theorem processStatusLine_stores (leftover : Leftover) (line : List Byte) (r : HttpRequest) :
    processStatusLine leftover line r = (storeLine line).map fun stores =>
      (line.length, { r with
        method := some (stores.method.block leftover.method)
        url := some (stores.url.block leftover.url)
        version := some (stores.version.block leftover.version) }) := by
  cases hmethod : find [32] line with
  | none => simp [processStatusLine, storeLine, hmethod]
  | some methodSize =>
    cases hurl : find [32] (line.drop (methodSize + 1)) with
    | none => simp [processStatusLine, storeLine, hmethod, hurl]
    | some urlSize => simp [processStatusLine, storeLine, hmethod, hurl, storeField_block]

theorem storeLine_eq {method url : List Byte} (version : List Byte) (hmethod : 32 ∉ method)
    (hurl : 32 ∉ url) : storeLine (method ++ 32 :: (url ++ 32 :: version)) =
      some ⟨storeField method,storeField url,storeField version⟩ := by
  have hfirst : find [32] (method ++ 32 :: (url ++ 32 :: version)) = some method.length :=
    find_single _ _ hmethod
  have hsecond : find [32] (url ++ 32 :: version) = some url.length := find_single _ _ hurl
  have hdrop : (method ++ 32 :: (url ++ 32 :: version)).drop (method.length + 1) =
      url ++ 32 :: version := by simp
  simp only [storeLine, hfirst, Option.bind_some, hdrop, hsecond, Option.map_some]
  simp

/-- The three fields are stored as C strings that read as their texts, with no byte
behind their blocks. -/
def StoredExactly (leftover : Leftover) (stores : LineStores) (method url version : List Byte) : Prop :=
  (stores.method.Inside ∧ stores.url.Inside ∧ stores.version.Inside) ∧
    ReadsAs (stores.method.block leftover.method) method ∧
    ReadsAs (stores.url.block leftover.url) url ∧
    ReadsAs (stores.version.block leftover.version) version

/-- No request line is stored exactly: each of its three terminators is written behind
its block, and each field reads as its text just when the last cell of its block
happened to be zero. -/
theorem storeLine_notExact (leftover : Leftover) (r : HttpRequest)
    {method url version : List Byte} (hmethod : 32 ∉ method) (hurl : 32 ∉ url)
    (hnul : 0 ∉ method ∧ 0 ∉ url ∧ 0 ∉ version) :
    ∃ stores, storeLine (method ++ 32 :: (url ++ 32 :: version)) = some stores ∧
      processStatusLine leftover (method ++ 32 :: (url ++ 32 :: version)) r =
        some ((method ++ 32 :: (url ++ 32 :: version)).length, { r with
          method := some (stores.method.block leftover.method)
          url := some (stores.url.block leftover.url)
          version := some (stores.version.block leftover.version) }) ∧
      ¬ StoredExactly leftover stores method url version ∧
      (¬ stores.method.Inside ∧ ¬ stores.url.Inside ∧ ¬ stores.version.Inside) ∧
      (ReadsAs (stores.method.block leftover.method) method ↔ leftover.method method.length = 0) ∧
      (ReadsAs (stores.url.block leftover.url) url ↔ leftover.url url.length = 0) ∧
      (ReadsAs (stores.version.block leftover.version) version ↔
        leftover.version version.length = 0) := by
  obtain ⟨hmethod',hurl',hversion'⟩ := hnul
  have hstore := storeLine_eq version hmethod hurl
  refine ⟨_,hstore,?_,fun h => not_inside method h.1.1,
    ⟨not_inside method,not_inside url,not_inside version⟩,?_,?_,?_⟩
  · rw [processStatusLine_stores, hstore, Option.map_some]
  · exact readsAs_iff hmethod' leftover.method
  · exact readsAs_iff hurl' leftover.url
  · exact readsAs_iff hversion' leftover.version

theorem storeLine_notExact_sample :
    ∃ stores, storeLine (ascii "GET" ++ 32 :: (ascii "/" ++ 32 :: ascii "HTTP/1.1")) = some stores ∧
      processStatusLine sampleLeftover (ascii "GET" ++ 32 :: (ascii "/" ++ 32 :: ascii "HTTP/1.1"))
          httpRequestNew =
        some ((ascii "GET" ++ 32 :: (ascii "/" ++ 32 :: ascii "HTTP/1.1")).length,
          { httpRequestNew with
            method := some (stores.method.block sampleLeftover.method)
            url := some (stores.url.block sampleLeftover.url)
            version := some (stores.version.block sampleLeftover.version) }) ∧
      ¬ StoredExactly sampleLeftover stores (ascii "GET") (ascii "/") (ascii "HTTP/1.1") ∧
      (¬ stores.method.Inside ∧ ¬ stores.url.Inside ∧ ¬ stores.version.Inside) ∧
      (ReadsAs (stores.method.block sampleLeftover.method) (ascii "GET") ↔
        sampleLeftover.method (ascii "GET").length = 0) ∧
      (ReadsAs (stores.url.block sampleLeftover.url) (ascii "/") ↔
        sampleLeftover.url (ascii "/").length = 0) ∧
      (ReadsAs (stores.version.block sampleLeftover.version) (ascii "HTTP/1.1") ↔
        sampleLeftover.version (ascii "HTTP/1.1").length = 0) :=
  storeLine_notExact sampleLeftover httpRequestNew (by decide) (by decide) (by decide)

/-- `GET / HTTP/1.1` in blocks with a letter left in them: the method has four cells,
the last byte for it goes into a fifth one, and it reads as `GETX`. -/
theorem storeLine_GETX :
    ∃ stores, storeLine (ascii "GET / HTTP/1.1") = some stores ∧ stores.method.allocated = 4 ∧
      (4, 0) ∈ stores.method.writes ∧ ¬ stores.method.Inside ∧
      cString (load (stores.method.block fun _ => 88) 0 5) = ascii "GETX" ∧
      ¬ StoredExactly ⟨fun _ => 88,fun _ => 88,fun _ => 88⟩ stores (ascii "GET") (ascii "/")
        (ascii "HTTP/1.1") := by
  have hstore := storeLine_eq (ascii "HTTP/1.1") (show 32 ∉ ascii "GET" by decide)
    (show 32 ∉ ascii "/" by decide)
  exact ⟨_,hstore,by decide,by decide,not_inside _,by decide,fun h => not_inside _ h.1.1⟩

end CppExamples.HttpTest
