import HdLang.Journal.Framing
import HdLang.Journal.Recorder

/-!
# Payloads are read back

For every part of a payload, the bytes that its writer adds (`ulebBytes`, `replyBytes` and so on)
and that its reader reads them as what was written (`Reads`), whatever stands around them. A part
too long for a `usize` has no reader, and no writer in memory either.
-/

namespace HdLang.Journal

open Cursor Leb128 LittleEndian List Event Request Value

variable {methods : Methods}

/-! ### What the writers add -/

def ulebBytes (v : UInt64) : Bytes := encode v.toNat

/-- The bytes after their length. -/
def sized (bytes : Bytes) : Bytes := ulebBytes (UInt64.ofNat bytes.length) ++ bytes

def valueBytes : Value → Bytes
  | .void => []
  | .int v => ulebBytes v.toUInt64
  | .f64 bits => toLe 8 bits.toNat
  | .pair status v => ulebBytes (bits status) ++ ulebBytes (bits v)

def resultBytes : Option Bytes → Bytes
  | none => []
  | some bytes => sized bytes

/-- The tag of a reply: its value's, plus 4 when result bytes follow. -/
def replyTag (value : Value) (result : Option Bytes) : UInt8 :=
  value.tag ||| if result.isSome then 4 else 0

def replyBytes (value : Value) (result : Option Bytes) : Bytes :=
  [replyTag value result] ++ (valueBytes value ++ resultBytes result)

def handleBytes (handles : List UInt32) : Bytes := handles.flatMap fun h => ulebBytes h.toUInt64

def handlesBytes (handles : List UInt32) : Bytes :=
  ulebBytes (UInt64.ofNat handles.length) ++ handleBytes handles

def requestBytes (requestDigest : Bytes → UInt64) (request : Bytes) : Bytes :=
  ulebBytes (UInt64.ofNat request.length) ++
    if request.length ≤ 8 then request else toLe 8 (requestDigest request).toNat

theorem putUleb_add (out : Bytes) (v : UInt64) : putUleb out v = out ++ ulebBytes v :=
  putUleb_eq out v

theorem putValue_eq (out : Bytes) (value : Value) :
    putValue out value = out ++ valueBytes value := by
  cases value with
  | void => exact (append_nil out).symm
  | int v => exact putUleb_add _ _
  | f64 bits => rfl
  | pair status v => simp only [putValue, valueBytes, putUleb_add, append_assoc]

theorem putReply_eq (out : Bytes) (value : Value) (result : Option Bytes) :
    putReply out value result = out ++ replyBytes value result := by
  cases result with
  | none => simp only [putReply, putValue_eq, replyBytes, replyTag, resultBytes, append_nil,
      append_assoc]
  | some bytes => simp only [putReply, putValue_eq, replyBytes, replyTag, resultBytes, putUleb_add,
      sized, append_assoc]

theorem putHandles_eq (out : Bytes) (handles : List UInt32) :
    putHandles out handles = out ++ handlesBytes handles := by
  have hfold : ∀ out : Bytes, handles.foldl (fun out h => putUleb out h.toUInt64) out =
      out ++ handleBytes handles := by
    intro out
    rw [handleBytes]
    induction handles generalizing out with
    | nil => exact (append_nil out).symm
    | cons h handles ih =>
      rw [foldl_cons, ih, putUleb_add, flatMap_cons, append_assoc]
  rw [putHandles, hfold, putUleb_add, handlesBytes, append_assoc]

theorem putRequest_eq (requestDigest : Bytes → UInt64) (out request : Bytes) :
    Recorder.putRequest requestDigest out request = out ++ requestBytes requestDigest request := by
  rw [Recorder.putRequest, requestBytes, putUleb_add]
  split <;> rw [append_assoc]

/-! ### What the readers make of it -/

theorem uleb_reads (v : UInt64) : Reads SIZES getUleb (ulebBytes v) v :=
  getUleb_reads (uleb_encode v)

theorem toNat_ofNat_of_lt {n : ℕ} (h : n < SIZES) : (UInt64.ofNat n).toNat = n := by
  rw [UInt64.toNat_ofNat']
  exact Nat.mod_eq_of_lt h

variable {bytes : Bytes}

theorem getBytes_reads {n : ℕ} (hn : bytes.length = n) :
    Reads SIZES (fun b => getBytes b n) bytes bytes := by
  intro pre post hlen
  have hspans : Spans (pre ++ bytes ++ post) pre.length (pre.length + n) bytes :=
    ⟨pre, post, rfl, rfl, by rw [hn]⟩
  rw [hn] at hlen
  show ((need (checkedAdd pre.length n)).run pre.length >>= _) = _
  rw [checkedAdd, if_pos hlen]
  show ((need (slice _ pre.length (pre.length + n))).run pre.length >>= _) = _
  rw [slice_eq hspans]
  show ((plus pre.length n).run pre.length >>= _) = _
  rw [plus_run hlen, hn]
  rfl

theorem getByte_reads (x : UInt8) : Reads SIZES getByte [x] x :=
  ((getBytes_reads (n := 1) (show [x].length = 1 from rfl)).bind (k := fun bs _ => first bs) (Reads.pure x)).congr
    (append_nil _) rfl

theorem getU64_reads (v : UInt64) : Reads SIZES getU64 (toLe 8 v.toNat) v := by
  apply ((getBytes_reads (length_toLe 8 v.toNat)).ret fun bs => UInt64.ofNat (ofLe bs)).congr rfl
  rw [ofLe_toLe (lt_of_lt_of_le v.toNat_lt (by decide)), UInt64.ofNat_toNat]

theorem getU128_reads (v : U128) : Reads SIZES getU128 (toLe 16 v.toNat) v := by
  apply ((getBytes_reads (length_toLe 16 v.toNat)).ret fun bs => BitVec.ofNat 128 (ofLe bs)).congr
    rfl
  rw [ofLe_toLe (lt_of_lt_of_le v.isLt (by decide)), BitVec.ofNat_toNat, BitVec.setWidth_eq]

variable {γ : Type} {cs : Bytes} {c : γ}

/-- A length leads the reader over the bytes after it. -/
theorem sized_reads {k : Bytes → Reader UInt8 Halt γ} (hk : Reads SIZES (k bytes) cs c) :
    Reads SIZES (fun b => getUleb b >>= fun len => getBytes b len.toNat >>= fun bs => k bs b)
      (sized bytes ++ cs) c := by
  apply Reads.of_lt
  intro hlen
  rw [sized, append_assoc, length_append, length_append] at hlen
  have hcount : bytes.length = (UInt64.ofNat bytes.length).toNat :=
    (toNat_ofNat_of_lt (by omega)).symm
  have hbytes := (getBytes_reads hcount).bind (k := k) hk
  have h := Reads.bind (k := fun (len : UInt64) b => getBytes b len.toNat >>= fun bs => k bs b)
    (uleb_reads (UInt64.ofNat bytes.length)) hbytes
  exact h.congr (by rw [sized, append_assoc]) rfl

theorem need_reads {α : Type} (a : α) :
    Reads (β := UInt8) SIZES (fun _ => need (some a)) [] a := Reads.pure a

theorem fromUtf8_asBytes (text : String) : fromUtf8 (asBytes text) = some text := by
  rw [fromUtf8, asBytes]
  show String.fromUTF8? text.toUTF8 = some text
  exact dif_pos text.isValidUTF8

theorem getText_reads (text : String) : Reads SIZES getText (sized (asBytes text)) text := by
  have hk : Reads (β := UInt8) SIZES (fun _ => need (fromUtf8 (asBytes text))) [] text := by
    rw [fromUtf8_asBytes]
    exact need_reads text
  exact (sized_reads (k := fun bs _ => need (fromUtf8 bs)) hk).congr (append_nil _) rfl

theorem u32Of_toUInt64 (v : UInt32) : u32Of v.toUInt64 = some v := by
  have hlt : v.toUInt64.toNat < 4294967296 := by
    rw [UInt32.toNat_toUInt64]
    exact v.toNat_lt
  rw [u32Of, if_pos hlt, UInt32.toUInt32_toUInt64]

/-- A number that fits a `u32` leads a reader that needs one. -/
theorem u32_reads {v : UInt32} {k : UInt32 → Reader UInt8 Halt γ} (hk : Reads SIZES (k v) cs c) :
    Reads SIZES (fun b => getUleb b >>= fun w => need (u32Of w) >>= fun v => k v b)
      (ulebBytes v.toUInt64 ++ cs) c := by
  apply (uleb_reads v.toUInt64).bind (k := fun w b => need (u32Of w) >>= fun v => k v b)
  rw [u32Of_toUInt64]
  exact hk

theorem getHandlesFrom_reads (handles : List UInt32) :
    Reads SIZES (fun b => getHandlesFrom b handles.length) (handleBytes handles) handles := by
  induction handles with
  | nil => exact Reads.pure []
  | cons h handles ih =>
    rw [handleBytes, flatMap_cons, ← handleBytes]
    exact u32_reads (k := fun v b => getHandlesFrom b handles.length >>= fun hs => pure (v :: hs))
      (ih.ret fun hs => h :: hs)

theorem length_handles_le (handles : List UInt32) :
    handles.length ≤ (handleBytes handles).length := by
  induction handles with
  | nil => exact Nat.zero_le _
  | cons h handles ih =>
    have hpos : 0 < (ulebBytes h.toUInt64).length := length_pos_iff.mpr (form_encode _).ne_nil
    rw [handleBytes, flatMap_cons, ← handleBytes, length_cons, length_append]
    omega

theorem getHandles_reads (handles : List UInt32) :
    Reads SIZES getHandles (handlesBytes handles) handles := by
  apply Reads.of_lt
  intro hlen
  have hle := length_handles_le handles
  rw [handlesBytes, length_append] at hlen
  apply (uleb_reads _).bind (k := fun n b => getHandlesFrom b n.toNat)
  rw [toNat_ofNat_of_lt (by omega)]
  exact getHandlesFrom_reads handles

theorem low_bits (v : Int32) : low (bits v) = v := by
  rw [low, bits, UInt32.toUInt32_toUInt64, Int32.toInt32_toUInt32]

section

variable (value : Value) (result : Option Bytes)
include value result

theorem replyTag_low :
    (replyTag value result &&& 3).toNat = value.tag.toNat := by
  cases value <;> cases result <;> simp [replyTag, tag]

theorem replyTag_high :
    (replyTag value result >>> 2).toNat = if result.isSome then 1 else 0 := by
  cases value <;> cases result <;> simp [replyTag, tag]

theorem getValue_reads :
    Reads SIZES (fun b => getValue b (replyTag value result)) (valueBytes value) value := by
  simp only [getValue, replyTag_low]
  cases value with
  | void => exact Reads.pure _
  | int v =>
    apply ((uleb_reads v.toUInt64).ret fun w => int w.toInt64).congr rfl
    rw [Int64.toInt64_toUInt64]
  | f64 bits => exact (getU64_reads bits).ret f64
  | pair status v =>
    apply ((uleb_reads (bits status)).bind
      (k := fun x b => getUleb b >>= fun y => pure (pair (low x) (low y)))
      ((uleb_reads (bits v)).ret fun y => pair (low (bits status)) (low y))).congr rfl
    rw [low_bits, low_bits]

theorem getResult_reads :
    Reads SIZES (fun b => getResult b (replyTag value result)) (resultBytes result) result := by
  simp only [getResult, replyTag_high]
  cases result with
  | none => exact Reads.pure _
  | some bytes =>
    exact (sized_reads (k := fun bs _ => pure (some bs)) (Reads.pure (some bytes))).congr
      (append_nil _) rfl

theorem getReply_reads :
    Reads SIZES getReply (replyBytes value result) (value, result) :=
  (getByte_reads _).bind
    (k := fun tag b => getValue b tag >>= fun v => getResult b tag >>= fun r => pure (v, r))
    ((getValue_reads value result).bind
      (k := fun v b => getResult b (replyTag value result) >>= fun r => pure (v, r))
      ((getResult_reads value result).ret fun r => (value, r)))

end

variable {request : Bytes}

theorem getRequest_reads (requestDigest : Bytes → UInt64) (hrequest : request.length < SIZES) :
    Reads SIZES getRequest (requestBytes requestDigest request)
      (Request.of requestDigest request) := by
  have hcount := toNat_ofNat_of_lt hrequest
  apply Reads.bind (k := fun (len : UInt64) b =>
    if len.toNat ≤ 8 then getBytes b len.toNat >>= fun bs => pure (args bs)
    else getU64 b >>= fun v => pure (digest len v)) (uleb_reads _)
  rw [hcount, of]
  by_cases hshort : request.length ≤ 8
  · simp only [if_pos hshort]
    exact (getBytes_reads rfl).ret args
  · simp only [if_neg hshort]
    exact (getU64_reads _).ret _

theorem getEnd_tagged {end' : End} (tag : UInt8) (rest : Bytes)
    (h : Reads SIZES (fun b => match tag.toNat with
      | 0 => do return End.exit (← getByte b)
      | 1 => pure .trapped
      | 2 => pure .stopped
      | 3 => pure .cancelled
      | 4 => pure .failed
      | _ => throw .miss) rest end') : Reads SIZES getEnd ([tag] ++ rest) end' :=
  (getByte_reads tag).bind h

theorem getEnd_reads (end' : End) : Reads SIZES getEnd (Recorder.endBytes end') end' := by
  cases end' with
  | exit status => exact getEnd_tagged 0 [status] ((getByte_reads status).ret End.exit)
  | trapped => exact getEnd_tagged 1 [] (Reads.pure _)
  | stopped => exact getEnd_tagged 2 [] (Reads.pure _)
  | cancelled => exact getEnd_tagged 3 [] (Reads.pure _)
  | failed => exact getEnd_tagged 4 [] (Reads.pure _)

/-! ### Calls -/

variable {method : UInt64}

theorem nameMethod_new (h : method.toNat = methods.length) (module name : String) :
    Reads SIZES (fun b => nameMethod b methods method)
      (sized (asBytes module) ++ sized (asBytes name)) (methods ++ [(module, name)]) := by
  simp only [nameMethod, if_pos h]
  exact Reads.bind (k := fun (module : String) b =>
      getText b >>= fun name => pure (methods ++ [(module, name)]))
    (getText_reads module) ((getText_reads name).ret fun name => methods ++ [(module, name)])

theorem nameMethod_old (h : method.toNat ≠ methods.length) :
    Reads SIZES (fun b => nameMethod b methods method) [] methods := by
  simp only [nameMethod, if_neg h]
  exact Reads.pure methods

/-- The number of a method, its names when it is new, the arguments and the reply. -/
theorem getCall_reads (requestDigest : Bytes → UInt64) {names : Bytes} {methods' : Methods}
    {module name : String} (hrequest : request.length < SIZES)
    (hnames : Reads SIZES (fun b => nameMethod b methods method) names methods')
    (hmethod : methods'[method.toNat]? = some (module, name)) (value : Value)
    (result : Option Bytes) :
    Reads SIZES (getCall methods)
      (ulebBytes method ++ (names ++ (requestBytes requestDigest request ++
        replyBytes value result)))
      (.call module name (Request.of requestDigest request) value result, methods') := by
  have hreply := (getReply_reads value result).ret fun reply =>
    (call module name (of requestDigest request) reply.1 reply.2, methods')
  have hrest := Reads.bind (k := fun (request : Request) b => getReply b >>= fun reply =>
    pure (call module name request reply.1 reply.2, methods'))
    (getRequest_reads requestDigest hrequest) hreply
  have himport : Reads SIZES (fun b => need methods'[method.toNat]? >>= fun import' =>
      getRequest b >>= fun request => getReply b >>= fun reply =>
        pure (call import'.1 import'.2 request reply.1 reply.2, methods'))
      (requestBytes requestDigest request ++ replyBytes value result)
      (.call module name (of requestDigest request) value result, methods') := by
    rw [hmethod]
    exact hrest
  exact Reads.bind (k := fun (method : UInt64) b => nameMethod b methods method >>= fun methods =>
      need methods[method.toNat]? >>= fun import' => getRequest b >>= fun request =>
        getReply b >>= fun reply =>
          pure (call import'.1 import'.2 request reply.1 reply.2, methods))
    (uleb_reads method)
    (Reads.bind (k := fun (methods : Methods) b => need methods[method.toNat]? >>= fun import' =>
      getRequest b >>= fun request => getReply b >>= fun reply =>
        pure (call import'.1 import'.2 request reply.1 reply.2, methods)) hnames himport)

/-! ### Events -/

section Events

variable (methods)

theorem header_reads (format : UInt64) (execution : U128) :
    Reads SIZES (fun b => getEvent methods b .header)
      (ulebBytes format ++ toLe 16 execution.toNat) (.header format execution, methods) :=
  Reads.bind (k := fun (format : UInt64) b => getU128 b >>= fun execution =>
    pure (header format execution, methods)) (uleb_reads format)
    ((getU128_reads execution).ret fun execution => (header format execution, methods))

theorem input_reads (number : UInt32) (source module : U128) :
    Reads SIZES (fun b => getEvent methods b .input)
      (ulebBytes number.toUInt64 ++ (toLe 16 source.toNat ++ toLe 16 module.toNat))
      (.input number source module, methods) :=
  u32_reads (k := fun number b => getU128 b >>= fun source => getU128 b >>= fun module =>
    pure (input number source module, methods))
    (Reads.bind (k := fun (source : U128) b => getU128 b >>= fun module =>
      pure (input number source module, methods)) (getU128_reads source)
      ((getU128_reads module).ret fun module => (input number source module, methods)))

theorem finish_reads (handle : UInt32) (value : Value) (result : Option Bytes) :
    Reads SIZES (fun b => getEvent methods b .finish)
      (ulebBytes handle.toUInt64 ++ replyBytes value result)
      (.finish handle value result, methods) :=
  u32_reads (k := fun handle b => getReply b >>= fun reply =>
    pure (finish handle reply.1 reply.2, methods))
    ((getReply_reads value result).ret fun reply => (finish handle reply.1 reply.2, methods))

theorem wake_reads (poll : UInt64) (handles : List UInt32) :
    Reads SIZES (fun b => getEvent methods b .wake) (ulebBytes poll ++ handlesBytes handles)
      (.wake poll handles, methods) :=
  Reads.bind (k := fun (poll : UInt64) b => getHandles b >>= fun handles =>
    pure (wake poll handles, methods)) (uleb_reads poll)
    ((getHandles_reads handles).ret fun handles => (wake poll handles, methods))

theorem block_reads (handles : List UInt32) :
    Reads SIZES (fun b => getEvent methods b .block) (handlesBytes handles)
      (.block handles, methods) :=
  (getHandles_reads handles).ret fun handles => (block handles, methods)

theorem abort_reads (handle : UInt32) :
    Reads SIZES (fun b => getEvent methods b .abort) (ulebBytes handle.toUInt64)
      (.abort handle, methods) :=
  (u32_reads (k := fun handle _ => pure (abort handle, methods)) (Reads.pure _)).congr
    (append_nil _) rfl

theorem cancel_reads (poll : UInt64) :
    Reads SIZES (fun b => getEvent methods b .cancel) (ulebBytes poll) (.cancel poll, methods) :=
  (uleb_reads poll).ret fun poll => (cancel poll, methods)

theorem end_reads (end' : End) :
    Reads SIZES (fun b => getEvent methods b .«end») (Recorder.endBytes end')
      (.«end» end', methods) :=
  (getEnd_reads end').ret fun end' => (Event.«end» end', methods)

end Events

end HdLang.Journal
