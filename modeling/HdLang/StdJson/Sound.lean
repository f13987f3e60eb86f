import HdLang.Lib.Outcome
import HdLang.StdJson.Objects
import HdLang.StdJson.Writer

/-!
# Values with sound objects

A value is sound when every object in it, however deep, keeps its index and has no key twice
(`Json.Sound`). The writer makes sound values of sound values, with one exception: an internally
tagged variant puts its tag before the members of its payload, and a member of the tag's name stays
(`JsonWriter.Clashes`).
-/

namespace HdLang.StdJson

open AssocList List Gives

variable {Case F : Type} {fields : JsonObject (Json F)} {value : Json F}

/-- Every object in the value keeps its index and has distinct keys. -/
inductive Json.Sound : Json F → Prop
  | null : Sound .null
  | bool (value : Bool) : Sound (.bool value)
  | number (value : Number F) : Sound (.number value)
  | text (value : Text) : Sound (.text value)
  | array {items : List (Json F)} (h : ∀ item ∈ items, Sound item) : Sound (.array items)
  | object {fields : JsonObject (Json F)} (hkeeps : fields.Keeps)
    (h : ∀ entry ∈ fields.entries, Sound entry.2) : Sound (.object fields)

namespace Json.Sound

theorem items {items : List (Json F)} (h : Sound (.array items)) : ∀ item ∈ items, Sound item := by
  cases h with
  | array h => exact h

theorem keeps (h : Sound (.object fields)) : fields.Keeps := by
  cases h with
  | object hkeeps _ => exact hkeeps

theorem member (h : Sound (.object fields)) : ∀ entry ∈ fields.entries, Sound entry.2 := by
  cases h with
  | object _ h => exact h

theorem new : Sound (.object (.new : JsonObject (Json F))) :=
  .object JsonObject.keeps_new fun _ h => nomatch h

theorem set {key : Text} (h : Sound (.object fields)) (hvalue : Sound value) :
    Gives (fun after => Sound (.object after)) (fields.set key value) := by
  intro after hafter
  obtain ⟨_, hset, hkeeps, hentries⟩ := h.keeps.set key value
  obtain rfl := Except.ok.inj (hset.symm.trans hafter)
  refine .object hkeeps fun entry hentry => ?_
  rw [hentries] at hentry
  rcases mem_insert hentry with hnew | hold
  · exact hnew ▸ hvalue
  · exact h.member entry hold

theorem remove {key : Text} (h : Sound (.object fields)) :
    Gives (fun after => Sound (.object after.2)) (fields.remove key) := by
  intro after hafter
  obtain ⟨_, hremove, hkeeps, hentries⟩ := h.keeps.remove key
  obtain rfl := Except.ok.inj (hremove.symm.trans hafter)
  refine .object hkeeps fun entry hentry => ?_
  rw [hentries] at hentry
  exact h.member entry (mem_of_mem_eraseP hentry)

end Json.Sound

variable {keys : List Text} {values : List (Json F)}

section

variable (h : ∀ value ∈ values, value.Sound)
include h

theorem objectOf_sound :
    Gives (fun fields => Json.Sound (.object fields)) (objectOf keys values) :=
  foldlM (fun _ hfields _ hentry => hfields.set (h _ (of_mem_zip hentry).2)) .new

theorem single_sound :
    (single values).Sound := by
  cases values with
  | nil => exact .null
  | cons value values => exact h value mem_cons_self

theorem payload_sound {frame : OpenFrame Case} :
    Gives Json.Sound (payload frame keys values) :=
  ite (fun _ => ok_iff.mpr (single_sound h)) (fun _ => map_iff.mpr (objectOf_sound h))

end

/-- The tagged object repeats a key: the payload has a member of the tag's name. -/
def Repeats (frame : OpenFrame Case) (keys : List Text) (values : List (Json F)) (tag : Text) : Prop
  :=
  ∃ fields, payload frame keys values = .ok (.object fields) ∧ tag ∈ fields.keys

theorem taggedJson_sound {frame : OpenFrame Case} {tagging : EnumTagging}
    (h : ∀ value ∈ values, value.Sound)
    (hclean : ∀ tag, tagging = .internal tag → ¬Repeats frame keys values tag) :
    Gives Json.Sound (taggedJson frame keys values tagging) := by
  cases tagging with
  | internal tag =>
    rw [taggedJson, bind_iff]
    intro value hvalue
    have hsound := payload_sound h value hvalue
    cases value with
    | object fields =>
      have hnew : tag ∉ fields.entries.map Prod.fst := fun hmem =>
        hclean tag rfl ⟨fields, hvalue, hmem⟩
      refine pure_iff.mpr (.object ⟨?_, .inl rfl⟩ fun entry hentry => ?_)
      · exact nodup_cons.mpr ⟨hnew, hsound.keeps.nodup⟩
      · rcases mem_cons.mp hentry with rfl | hmem
        · exact .text _
        · exact hsound.member entry hmem
    | _ => exact throw
  | adjacent tag content =>
    rw [taggedJson, bind_iff]
    refine (Json.Sound.new.set (.text _)).mono fun object hobject => ?_
    split
    · exact pure_iff.mpr hobject
    · refine bind_iff.mpr ((objectOf_sound h).mono fun fields hfields => ?_)
      exact map_iff.mpr (hobject.set hfields)
    · exact map_iff.mpr (hobject.set (single_sound h))
    · exact map_iff.mpr (hobject.set (.array h))
  | untagged =>
    rw [taggedJson]
    split
    · exact ok_iff.mpr .null
    · exact map_iff.mpr (objectOf_sound h)
    · exact ok_iff.mpr (single_sound h)
    · exact ok_iff.mpr (.array h)

/-! ### The writer -/

namespace JsonWriter

variable {w : JsonWriter Case F}

/-- The next call ends an internally tagged variant whose payload has a member of the tag's name. -/
def Clashes (w : JsonWriter Case F) : Call Case F → Prop
  | .endVariant => ∃ frame rest tag, w.frames = frame :: rest ∧ frame.kind ≥ 4 ∧
      enumTagging frame.facts = some (.internal tag) ∧
      Repeats frame (w.keys.drop frame.start) (w.values.drop frame.start) tag
  | _ => False

/-- What the writer has written so far is sound. -/
structure Sound (w : JsonWriter Case F) : Prop where
  result : w.result.Sound
  values : ∀ value ∈ w.values, value.Sound

theorem sound_start : (start : JsonWriter Case F).Sound := ⟨.null, fun _ h => nomatch h⟩

namespace Sound

section

variable (h : w.Sound)
include h

theorem put (hvalue : value.Sound) : (w.put value).Sound := by
  unfold JsonWriter.put
  split
  · exact ⟨hvalue, h.values⟩
  · refine ⟨h.result, fun other hother => ?_⟩
    rcases mem_append.mp hother with hold | hnew
    · exact h.values other hold
    · exact mem_singleton.mp hnew ▸ hvalue

theorem «open» (kind : ℕ) (name : Text) (ofData : Bool) (facts : Facts Case) :
    (w.open kind name ofData facts).Sound := ⟨h.result, h.values⟩

theorem key (key : Text) : (w.key key).Sound := ⟨h.result, h.values⟩

theorem rename (name : Text) : (w.rename name).Sound := ⟨h.result, h.values⟩

theorem close :
    Gives (fun closed => (∀ value ∈ closed.2.2.1, value.Sound) ∧ closed.2.2.2.Sound) w.close := by
  unfold JsonWriter.close
  split
  · exact error
  · refine ok_iff.mpr ⟨fun value hvalue => ?_, h.result, fun value hvalue => ?_⟩
    · exact h.values value (mem_of_mem_drop hvalue)
    · exact h.values value (mem_of_mem_take hvalue)

theorem endList : Gives Sound w.endList := by
  unfold JsonWriter.endList
  refine bind_iff.mpr (h.close.mono fun closed hclosed => ?_)
  exact pure_iff.mpr (hclosed.2.put (.array hclosed.1))

theorem endMap : Gives Sound w.endMap := by
  unfold JsonWriter.endMap
  refine bind_iff.mpr (h.close.mono fun closed hclosed => ?_)
  refine bind_iff.mpr ((objectOf_sound hclosed.1).mono fun fields hfields => ?_)
  exact pure_iff.mpr (hclosed.2.put hfields)

section

variable (facts : Facts Case) (v : VariantInfo)
include facts v

theorem beginVariant :
    (w.beginVariant facts v).Sound := by
  unfold JsonWriter.beginVariant
  split <;> exact h.open _ _ _ _

theorem beginNewtypeVariant :
    (w.beginNewtypeVariant facts v).Sound := by
  unfold JsonWriter.beginNewtypeVariant
  split
  · exact h.open _ _ _ _
  · exact ((h.open _ _ _ _).key _).rename _

theorem beginTupleVariant :
    (w.beginTupleVariant facts v).Sound := by
  unfold JsonWriter.beginTupleVariant
  split
  · exact h.open _ _ _ _
  · exact (((h.open _ _ _ _).key _).open _ _ _ _).rename _

end

theorem endVariant (hclean : ¬w.Clashes .endVariant) : Gives Sound w.endVariant := by
  unfold JsonWriter.endVariant
  split
  · exact error
  next frame rest hframes =>
  refine ite (fun hkind => ?_) fun _ => ite (fun _ => ?_) fun _ =>
    ite (fun _ => h.endMap) fun _ => ?_
  · split
    · exact error
    next tagging htagging =>
    -- what `close` pops is what the variant holds, so the tag is not among its keys
    have hclose : w.close = .ok (frame, w.keys.drop frame.start, w.values.drop frame.start,
        { w with pending := frame.key, keys := w.keys.take frame.start,
                 values := w.values.take frame.start, frames := rest }) := by
      rw [JsonWriter.close, hframes]
    have hclosed := h.close _ hclose
    rw [hclose]
    refine bind_iff.mpr (ok_iff.mpr (bind_iff.mpr ?_))
    refine (taggedJson_sound hclosed.1 fun tag heq hrepeats => ?_).mono fun value hvalue =>
      pure_iff.mpr (hclosed.2.put hvalue)
    exact hclean ⟨frame, rest, tag, hframes, hkind, heq ▸ htagging, hrepeats⟩
  · exact bind_iff.mpr (h.endList.mono fun w hw => hw.endMap)
  · refine bind_iff.mpr (h.close.mono fun closed hclosed => ?_)
    refine bind_iff.mpr ((objectOf_sound hclosed.1).mono fun fields hfields => ?_)
    refine ite (fun _ => pure_iff.mpr (hclosed.2.put hfields)) fun _ => ?_
    refine ite (fun _ => pure_iff.mpr (hclosed.2.put (.text _))) fun _ => ?_
    refine bind_iff.mpr ((Json.Sound.new.set hfields).mono fun outer houter => ?_)
    exact pure_iff.mpr (hclosed.2.put houter)

end

end Sound

section Calls

variable {isFinite : F → Bool} {caseName : Text → Case → Text}

/-- A call that does not clash keeps what is written sound. -/
theorem Sound.step (h : w.Sound) (call : Call Case F) (hclean : ¬w.Clashes call) :
    Gives Sound (w.step isFinite caseName call) := by
  cases call with
  | null => exact ok_iff.mpr (h.put .null)
  | bool value => exact ok_iff.mpr (h.put (.bool value))
  | int value => exact ok_iff.mpr (h.put (.number _))
  | uint value => exact ok_iff.mpr (h.put (.number _))
  | float value =>
    refine ok_iff.mpr (h.put ?_)
    split
    · exact .number _
    · exact .null
  | text value => exact ok_iff.mpr (h.put (.text value))
  | beginList len => exact ok_iff.mpr (h.open _ _ _ _)
  | endList => exact h.endList
  | beginMap len => exact ok_iff.mpr (h.open _ _ _ _)
  | key key => exact ok_iff.mpr (h.key _)
  | mapKey key => exact ok_iff.mpr (h.key _)
  | endMap => exact h.endMap
  | beginData facts v => exact ok_iff.mpr (h.open _ _ _ _)
  | beginVariant facts v => exact ok_iff.mpr (h.beginVariant facts v)
  | beginNewtypeVariant facts v => exact ok_iff.mpr (h.beginNewtypeVariant facts v)
  | beginTupleVariant facts v len => exact ok_iff.mpr (h.beginTupleVariant facts v)
  | member m => exact ok_iff.mpr (h.key _)
  | endData => exact h.endMap
  | endVariant => exact h.endVariant hclean

variable (isFinite caseName) in
/-- No call of a walk clashes. -/
def Clean (w : JsonWriter Case F) : List (Call Case F) → Prop
  | [] => True
  | call :: calls => ¬w.Clashes call ∧ ∀ after, w.step isFinite caseName call = .ok after →
      after.Clean calls

theorem Sound.calls (h : w.Sound) (calls : List (Call Case F))
    (hclean : w.Clean isFinite caseName calls) :
    Gives Sound (calls.foldlM (JsonWriter.step isFinite caseName) w) := by
  induction calls generalizing w with
  | nil => exact pure_iff.mpr h
  | cons call calls ih =>
    rw [foldlM_cons, bind_iff]
    exact fun after hafter => ih (h.step call hclean.1 after hafter) (hclean.2 after hafter)

end Calls

end JsonWriter

/-- `to_json` makes a sound value of a walk without clashes. -/
theorem toJson_sound {isFinite : F → Bool} {caseName : Text → Case → Text}
    {calls : List (Call Case F)} (hclean : JsonWriter.start.Clean isFinite caseName calls) :
    Gives Json.Sound (toJson isFinite caseName calls) := by
  unfold toJson
  refine bind_iff.mpr ((JsonWriter.sound_start.calls calls hclean).mono fun w hw => ?_)
  exact pure_iff.mpr hw.result

end HdLang.StdJson
