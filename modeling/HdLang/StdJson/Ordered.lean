import HdLang.StdJson.Parser

/-!
# The objects of a program

A program gets values from `new`, `set` and `remove`, from `parse`, `from_json` and `to_json`, and
from the parts of values that it holds (`Held`). As long as it writes no internally tagged variant
whose payload has a member of the tag's name, each object answers every sequence of operations as a
map in order of insertion does (`objects_ordered`). Such a variant keeps the member beside its tag,
and then a key has two members (`not_ordered`).
-/

namespace HdLang.StdJson

/-! ### Operations -/

/-- An operation on an object; `O` are the objects it may be compared with. -/
inductive Op (J O : Type)
  | get (key : Text)
  | containsKey (key : Text)
  | len
  | keys
  | iter
  | eq (other : O)
  | set (key : Text) (value : J)
  | remove (key : Text)

/-- The same operation with another form of the object that it compares with. -/
def Op.map {J O O' : Type} (f : O → O') : Op J O → Op J O'
  | .get key => .get key
  | .containsKey key => .containsKey key
  | .len => .len
  | .keys => .keys
  | .iter => .iter
  | .eq other => .eq (f other)
  | .set key value => .set key value
  | .remove key => .remove key

/-- What an operation answers. -/
inductive Reply (J : Type)
  | value (found : Option J)
  | flag (flag : Bool)
  | count (count : ℕ)
  | keys (keys : List Text)
  | entries (entries : List (Text × J))
  | done

section Perform

variable {J : Type} (same : J → J → Bool)

def JsonObject.perform (self : JsonObject J) :
    Op J (JsonObject J) → Except Panic (Reply J × JsonObject J)
  | .get key => do return (.value (← self.get key), self)
  | .containsKey key => .ok (.flag (self.containsKey key), self)
  | .len => .ok (.count self.len, self)
  | .keys => .ok (.keys self.keys, self)
  | .iter => .ok (.entries self.iter, self)
  | .eq other => do return (.flag (← self.eq same other), self)
  | .set key value => do return (.done, ← self.set key value)
  | .remove key => do
    let (removed, after) ← self.remove key
    return (.value removed, after)

/-- The replies to a sequence of operations, and the object after them. -/
def JsonObject.run (self : JsonObject J) :
    List (Op J (JsonObject J)) → Except Panic (List (Reply J) × JsonObject J)
  | [] => .ok ([], self)
  | op :: ops => do
    let (reply, after) ← self.perform same op
    let (replies, last) ← after.run ops
    return (reply :: replies, last)

-- What the map compares names with.
local instance : LawfulBEq Text := inferInstance

open Classical in
/-- What a map in order of insertion answers. -/
noncomputable def answer (m : OrderedMap Text J) :
    Op J (OrderedMap Text J) → Reply J × OrderedMap Text J
  | .get key => (.value (m.get key), m)
  | .containsKey key => (.flag (decide (key ∈ m.keys)), m)
  | .len => (.count m.keys.length, m)
  | .keys => (.keys m.keys, m)
  | .iter => (.entries m.entries, m)
  | .eq other =>
    (.flag (decide (OrderedMap.Same (fun value found => same found value = true) m other)), m)
  | .set key value => (.done, m.insert key value)
  | .remove key => (.value (m.get key), m.erase key)

/-- What it answers to a sequence of operations. -/
noncomputable def answers (m : OrderedMap Text J) :
    List (Op J (OrderedMap Text J)) → List (Reply J) × OrderedMap Text J
  | [] => ([], m)
  | op :: ops =>
    let (reply, after) := answer same m op
    let (replies, last) := answers after ops
    (reply :: replies, last)

variable {same} {fields : JsonObject J} {m : OrderedMap Text J} {O : Type}
  {object : O → JsonObject J}

variable (same) in
theorem JsonObject.Holds.perform (h : fields.Holds m) (hkeeps : ∀ o, (object o).Keeps) (op : Op J O)
    :
    ∃ after, fields.perform same (op.map object) =
        .ok ((answer same m (op.map fun o => (object o).members (hkeeps o))).1, after) ∧
      after.Holds (answer same m (op.map fun o => (object o).members (hkeeps o))).2 := by
  obtain ⟨h, hentries⟩ := h
  obtain rfl : m = fields.members h := OrderedMap.ext_entries hentries.symm
  cases op with
  | get key =>
    refine ⟨fields, ?_, h, rfl⟩
    show (fields.get key >>= fun found => pure (Reply.value found, fields)) = _
    rw [h.get_eq]
    rfl
  | containsKey key =>
    refine ⟨fields, ?_, h, rfl⟩
    show Except.ok (Reply.flag (fields.containsKey key), fields) = _
    rw [h.containsKey_eq]
    refine congrArg (fun flag => Except.ok (Reply.flag flag, fields)) ?_
    rw [Bool.eq_iff_iff, decide_eq_true_iff]
    exact OrderedMap.get_isSome_iff
  | len =>
    refine ⟨fields, ?_, h, rfl⟩
    exact congrArg (fun n => Except.ok (Reply.count n, fields)) (List.length_map _).symm
  | keys => exact ⟨fields, rfl, h, rfl⟩
  | iter => exact ⟨fields, rfl, h, rfl⟩
  | eq other =>
    obtain ⟨flag, hflag, hiff⟩ := h.eq_iff same (hkeeps other)
    refine ⟨fields, ?_, h, rfl⟩
    show (fields.eq same (object other) >>= fun found => pure (Reply.flag found, fields)) = _
    rw [hflag]
    refine congrArg (fun flag => Except.ok (Reply.flag flag, fields)) ?_
    exact Bool.eq_iff_iff.mpr (hiff.trans (@decide_eq_true_iff _ (Classical.propDecidable _)).symm)
  | set key value =>
    obtain ⟨after, hset, hafter⟩ := h.set key value
    refine ⟨after, ?_, hafter⟩
    show (fields.set key value >>= fun after => pure (Reply.done, after)) = _
    rw [hset]
    rfl
  | remove key =>
    obtain ⟨after, hremove, hafter⟩ := h.remove key
    refine ⟨after, ?_, hafter⟩
    show (fields.remove key >>= fun removed => pure (Reply.value removed.1, removed.2)) = _
    rw [hremove]
    rfl

variable (same) in
theorem JsonObject.Holds.run (h : fields.Holds m) (hkeeps : ∀ o, (object o).Keeps)
    (ops : List (Op J O)) :
    ∃ after, fields.run same (ops.map (Op.map object)) =
        .ok ((answers same m (ops.map (Op.map fun o => (object o).members (hkeeps o)))).1, after) ∧
      after.Holds (answers same m (ops.map (Op.map fun o => (object o).members (hkeeps o)))).2 := by
  induction ops generalizing fields m with
  | nil => exact ⟨fields, rfl, h⟩
  | cons op ops ih =>
    obtain ⟨after, hperform, hafter⟩ := h.perform same hkeeps op
    obtain ⟨last, hrun, hlast⟩ := ih hafter
    refine ⟨last, ?_, hlast⟩
    rw [List.map_cons, JsonObject.run, hperform]
    show (after.run same (ops.map (Op.map object)) >>= fun rest => pure (_ :: rest.1, rest.2)) = _
    rw [hrun]
    rfl

end Perform

/-! ### Programs -/

section Held

variable {Case F : Type} (isFinite : F → Bool) (caseName : Text → Case → Text)

/-- A value that a program can hold, which writes only the walks that are `allowed`. -/
inductive Held (allowed : List (Call Case F) → Prop) : Json F → Prop
  | null : Held allowed .null
  | bool (value : Bool) : Held allowed (.bool value)
  | number (value : Number F) : Held allowed (.number value)
  | text (value : Text) : Held allowed (.text value)
  | array {items : List (Json F)} (h : ∀ item ∈ items, Held allowed item) : Held allowed
    (.array items)
  | item {items : List (Json F)} (h : Held allowed (.array items)) {item : Json F}
    (hitem : item ∈ items) : Held allowed item
  | new : Held allowed (.object .new)
  | set {fields after : JsonObject (Json F)} {key : Text} {value : Json F}
    (h : Held allowed (.object fields)) (hvalue : Held allowed value)
    (hset : fields.set key value = .ok after) : Held allowed (.object after)
  | remove {fields after : JsonObject (Json F)} {key : Text} {removed : Option (Json F)}
    (h : Held allowed (.object fields)) (hremove : fields.remove key = .ok (removed, after)) :
    Held allowed (.object after)
  | member {fields : JsonObject (Json F)} (h : Held allowed (.object fields))
    {entry : Text × Json F}
    (hentry : entry ∈ fields.entries) : Held allowed entry.2
  | parse {text : Text} {number : ℕ → Except JsonError (Number F × ℕ)} {fuel : ℕ} {value : Json F}
    (h : parse text number fuel = .ok value) : Held allowed value
  | fromJson {R E : Type} {input : Deserializer R E F} {fuel : ℕ} {state after : R} {value : Json F}
    (h : (deserialize isFinite input fuel).run state = .ok (value, after)) : Held allowed value
  | toJson {calls : List (Call Case F)} {value : Json F} (hallowed : allowed calls)
    (h : toJson isFinite caseName calls = .ok value) : Held allowed value

/-- The walks in which no tag is among the keys of the payload that it stands before. -/
def Unrepeated (calls : List (Call Case F)) : Prop := JsonWriter.start.Clean isFinite caseName calls

variable {isFinite caseName}

/-- Every value of a program that repeats no tag is sound. -/
theorem Held.sound {value : Json F}
    (h : Held isFinite caseName (Unrepeated isFinite caseName) value) : value.Sound := by
  induction h with
  | null => exact .null
  | bool value => exact .bool value
  | number value => exact .number value
  | text value => exact .text value
  | array _ ih => exact .array ih
  | item _ hitem ih => exact ih.items _ hitem
  | new => exact .new
  | set _ _ hset ih ihvalue => exact ih.set ihvalue _ hset
  | remove _ hremove ih => exact ih.remove _ hremove
  | member _ hentry ih => exact ih.member _ hentry
  | parse h => exact parse_sound _ _ h
  | fromJson h => exact deserialize_sound _ _ _ h
  | toJson hclean h => exact toJson_sound hclean _ h

/-- An object that such a program can hold. -/
abbrev HeldObject (isFinite : F → Bool) (caseName : Text → Case → Text) : Type :=
  { fields : JsonObject (Json F) //
    Held isFinite caseName (Unrepeated isFinite caseName) (.object fields) }

theorem HeldObject.keeps (o : HeldObject isFinite caseName) : o.1.Keeps := o.2.sound.keeps

/-- An object has distinct keys and an index that is empty or exact, and answers every sequence of
operations as the map of its members in order of insertion. -/
theorem objects_ordered (isFinite : F → Bool) (caseName : Text → Case → Text)
    (object : HeldObject isFinite caseName) :
    (object.1.entries.map Prod.fst).Nodup ∧
    (object.1.index.entries = [] ∨
      ∀ key, object.1.index.get key = placeOf key object.1.entries) ∧
    ∀ (same : Json F → Json F → Bool) (ops : List (Op (Json F) (HeldObject isFinite caseName))),
      let expected := answers same (object.1.members object.keeps)
        (ops.map (Op.map fun other => other.1.members other.keeps))
      ∃ after, object.1.run same (ops.map (Op.map Subtype.val)) = .ok (expected.1, after) ∧
        after.Holds expected.2 :=
  ⟨object.keeps.nodup, object.keeps.index, fun same ops =>
    JsonObject.Holds.run same ⟨object.keeps, rfl⟩ HeldObject.keeps ops⟩

end Held

/-- An enum tagged `"t"` writes a newtype variant whose map has the key `"t"`. -/
def tagTwice : List (Call Unit Unit) :=
  [.beginNewtypeVariant [.tagging (.internal (ascii "t"))] ⟨ascii "A", false, 0, 1⟩, .beginMap 1,
    .key (ascii "t"), .null, .endMap, .endVariant]

theorem not_ordered :
    ¬∀ fields : JsonObject (Json Unit),
      Held (fun _ => true) (fun name _ => name) (fun _ : List (Call Unit Unit) => True)
        (.object fields) → (fields.entries.map Prod.fst).Nodup := by
  intro h
  have hwrite : toJson (fun _ => true) (fun name _ => name) tagTwice =
      .ok (.object ⟨[(ascii "t", .text (ascii "A")), (ascii "t", .null)], .empty⟩) := rfl
  have hheld : Held (fun _ => true) (fun name _ => name) (fun _ : List (Call Unit Unit) => True)
      (.object ⟨[(ascii "t", .text (ascii "A")), (ascii "t", .null)], .empty⟩) :=
    .toJson trivial hwrite
  exact absurd (h _ hheld) (by decide)

end HdLang.StdJson
