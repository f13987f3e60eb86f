import HdLang.Digest.Sha256

/-!
# The digest does not depend on how the message is fed

A hasher that was fed a message holds the hash value of its whole blocks, the bytes behind them and
its length. Feeding more keeps this, and `finish` compresses the padding behind a copy.
-/

namespace HdLang.Digest

open HdLang.Num HashFunctions HashFunctions.Sha BitVec

variable {α : Type} {xs : List α} {i : ℕ}

theorem item_eq {x : α} (h : xs[i]? = some x) : item xs i = .ok x
    := by
  rw [item, h]

theorem item_getD (h : i < xs.length) (d : α) :
    item xs i = .ok (xs.getD i d) := by
  refine item_eq ?_
  rw [List.getD_eq_getElem?_getD, List.getElem?_eq_getElem h, Option.getD_some]

variable {count : ℕ}

theorem shrU32_eq (word : Word) (h : count < 32) :
    shrU32 word count = .ok (word >>> count) := if_pos h

theorem shlU32_eq (word : Word) (h : count < 32) :
    shlU32 word count = .ok (word <<< count) := if_pos h

theorem rotateRight_eq (word : Word) (hpos : 0 < count) (h : count < 32) :
    rotateRight word count = .ok (word.rotateRight count) := by
  rw [rotateRight, shrU32_eq _ h, ok_bind, shlU32_eq _ (by omega), ok_bind, pure_eq,
    rotateRight_def, Nat.mod_eq_of_lt h]

/-- The tables are the standard's: the roots of the first primes. -/
theorem tables_eq : roundConstants = constants ∧ initialState = initial.list := by
  decide +kernel

/-! ### One block -/

/-- The block of 64 bytes from a position. -/
def blockAt (bytes : List Byte) (start : ℕ) : List Byte := (bytes.drop start).take 64

variable {bytes : List Byte} {start t : ℕ}

theorem loadWord_eq (h : start + 64 ≤ bytes.length) (ht : t < 16) :
    loadWord bytes start t = .ok (wordAt (blockAt bytes start) t) := by
  have hget : ∀ i < 64, (blockAt bytes start).getD i 0 = bytes.getD (start + i) 0 := by
    intro i hi
    rw [List.getD_eq_getElem?_getD, List.getD_eq_getElem?_getD, blockAt, List.getElem?_take, if_pos
      hi,
      List.getElem?_drop]
  have hword : ∀ b0 b1 b2 b3 : Byte, (ofByte b0 <<< 24) ||| (ofByte b1 <<< 16) ||| (ofByte b2 <<< 8)
    |||
      ofByte b3 = bigEndian b0 b1 b2 b3 := by
    intro b0 b1 b2 b3
    unfold ofByte bigEndian
    ext i hi
    simp only [getElem_or, getElem_setWidth, getElem_shiftLeft]
    grind
  rw [wordAt, hget _ (by omega), hget _ (by omega), hget _ (by omega), hget _ (by omega), ← hword,
    loadWord]
  show (item bytes (start + 4 * t) >>= fun b0 => shlU32 (ofByte b0) 24 >>= _) = _
  rw [item_getD (by omega) 0, ok_bind, shlU32_eq _ (by decide), ok_bind, item_getD (by omega) 0,
    ok_bind, shlU32_eq _ (by decide), ok_bind,
    item_getD (by omega) 0, ok_bind, shlU32_eq _ (by decide), ok_bind,
    item_getD (by omega) 0, ok_bind]
  rfl

theorem nextWord_eq {block : List Byte} (ht : 16 ≤ t) :
    nextWord ((List.range t).map (schedule block)) t = .ok (schedule block t) := by
  have hitem : ∀ i < t, item ((List.range t).map (schedule block)) i = .ok (schedule block i) := by
    intro i hi
    apply item_eq
    rw [List.getElem?_map, List.getElem?_range hi, Option.map_some]
  have hrot : ∀ (w : Word) {k : ℕ}, 0 < k → k < 32 → rotateRight w k = .ok (w.rotateRight k) :=
    fun w _ => rotateRight_eq w
  rw [nextWord, hitem _ (by omega), ok_bind, hitem _ (by omega), ok_bind, hrot _ (by decide)
    (by decide),
    ok_bind, hrot _ (by decide) (by decide), ok_bind, shrU32_eq _ (by decide), ok_bind]
  show (rotateRight (schedule block (t - 2)) 17 >>= _) = _
  rw [hrot _ (by decide) (by decide), ok_bind, hrot _ (by decide) (by decide), ok_bind,
    shrU32_eq _ (by decide), ok_bind]
  show (item _ (t - 16) >>= fun w16 => item _ (t - 7) >>= _) = _
  rw [hitem _ (by omega), ok_bind, hitem _ (by omega), ok_bind]
  have hschedule : schedule block t = sigma1 (schedule block (t - 2)) + schedule block (t - 7) +
      sigma0 (schedule block (t - 15)) + schedule block (t - 16) := by
    rw [schedule, if_neg (by omega)]
  show Except.ok (schedule block (t - 16) + sigma0 (schedule block (t - 15)) + schedule block
    (t - 7) +
    sigma1 (schedule block (t - 2))) = _
  rw [hschedule]
  exact congrArg Except.ok (by ac_rfl)

theorem scheduleTo_eq (h : start + 64 ≤ bytes.length) (t : ℕ) :
    scheduleTo bytes start t = .ok ((List.range t).map (schedule (blockAt bytes start))) := by
  induction t with
  | zero => rfl
  | succ t ih =>
    rw [scheduleTo, ih, ok_bind, List.range_succ, List.map_append]
    split
    · next hlt =>
      rw [loadWord_eq h hlt, ok_bind, List.map_singleton, schedule, if_pos hlt]
      rfl
    · next hge =>
      rw [nextWord_eq (by omega), ok_bind]
      rfl

theorem roundsTo_eq (v : Vars) (block : List Byte) (ht : t ≤ 64) :
    roundsTo ((List.range 64).map (schedule block)) constants v t = .ok (v.rounds block t) := by
  induction t with
  | zero => rfl
  | succ t ih =>
    have hrot : ∀ (w : Word) {k : ℕ}, 0 < k → k < 32 → rotateRight w k = .ok (w.rotateRight k) :=
      fun w _ => rotateRight_eq w
    have hword : item ((List.range 64).map (schedule block)) t = .ok (schedule block t) := by
      apply item_eq
      rw [List.getElem?_map, List.getElem?_range (by omega), Option.map_some]
    rw [roundsTo, ih (by omega), ok_bind, Sha.Vars.rounds]
    generalize v.rounds block t = vars
    obtain ⟨a, b, c, d, e, f, g, h⟩ := vars
    show (rotateRight e 6 >>= _) = _
    rw [hrot _ (by decide) (by decide), ok_bind, hrot _ (by decide) (by decide), ok_bind,
      hrot _ (by decide) (by decide), ok_bind]
    show (item constants t >>= fun k => item _ t >>= _) = _
    rw [item_getD (show t < constants.length from by rw [constants, List.length_map]; exact ht) 0,
      ok_bind, hword, ok_bind]
    show (rotateRight a 2 >>= _) = _
    rw [hrot _ (by decide) (by decide), ok_bind, hrot _ (by decide) (by decide), ok_bind,
      hrot _ (by decide) (by decide), ok_bind]
    rfl

theorem compress_eq (v : Vars) (h : start + 64 ≤ bytes.length) :
    compress v.list bytes start roundConstants = .ok (v.compress (blockAt bytes start)).list := by
  rw [compress, scheduleTo_eq h, ok_bind]
  show (Except.ok v >>= fun before => roundsTo _ roundConstants before 64 >>= _) = _
  rw [ok_bind, tables_eq.1, roundsTo_eq v _ le_rfl, ok_bind]
  rfl

/-! ### Feeding -/

namespace Sha256

/-- The hasher that was fed a message. -/
def holding (outer message : List Byte) : Sha256 where
  state := (initial.absorb message).list
  block := tail message
  length := BitVec.ofNat 64 message.length
  rounds := roundConstants
  outer := outer

theorem new_eq : new = holding [] [] := by
  rw [holding, absorb_of_lt (by decide), ← tables_eq.2]
  rfl

theorem feed_eq (v : Vars) (block bytes : List Byte) (h : block.length < 64) :
    feed roundConstants (v.list, block) bytes =
      .ok ((v.absorb (block ++ bytes)).list, tail (block ++ bytes)) := by
  induction bytes generalizing v block with
  | nil =>
    rw [List.append_nil, absorb_of_lt h, tail, Nat.div_eq_of_lt h, Nat.mul_zero, List.drop_zero]
    rfl
  | cons byte bytes ih =>
    have hsplit : block ++ byte :: bytes = (block ++ [byte]) ++ bytes := by simp
    rw [feed, hsplit]
    split
    · next hfull =>
      have hblock : blockAt (block ++ [byte]) 0 = block ++ [byte] := by
        rw [blockAt, List.drop_zero, List.take_of_length_le hfull.le]
      have hwhole : 64 ≤ ((block ++ [byte]) ++ bytes).length := by
        rw [List.length_append]
        omega
      have hnone : tail (block ++ [byte]) = [] := by
        rw [tail, hfull]
        exact List.drop_of_length_le hfull.le
      rw [compress_eq v (by omega), ok_bind, hblock, ih _ [] (by decide), List.nil_append,
        absorb_of_le hwhole, List.take_left' hfull, List.drop_left' hfull,
        tail_append (block ++ [byte]), hnone, List.nil_append]
    · next hpart =>
      have hlt : (block ++ [byte]).length < 64 := by
        rw [List.length_append, List.length_singleton] at *
        omega
      exact ih v _ hlt

theorem update_eq (outer message bytes : List Byte) :
    (holding outer message).update bytes = .ok (holding outer (message ++ bytes)) := by
  have hlt : (tail message).length < 64 := length_tail message ▸ Nat.mod_lt _ (by decide)
  rw [update]
  show (feed roundConstants ((initial.absorb message).list, tail message) bytes >>= _) = _
  rw [feed_eq _ _ _ hlt, ok_bind]
  show Except.ok (Sha256.mk _ _ (BitVec.ofNat 64 message.length + BitVec.ofNat 64 bytes.length)
    roundConstants outer) = _
  rw [holding, absorb_append initial message bytes, ← tail_append, List.length_append, ofNat_add]

/-! ### Finishing -/

variable {fuel : ℕ}

theorem padZeros_eq (last : List Byte) (h : (120 - last.length % 64) % 64 < fuel) :
    padZeros fuel last = .ok (last ++ List.replicate ((120 - last.length % 64) % 64) 0) := by
  induction fuel generalizing last with
  | zero => omega
  | succ fuel ih =>
    rw [padZeros]
    by_cases hdone : last.length % 64 = 56
    · rw [if_neg (not_not.mpr hdone), hdone]
      simp
    · have hnext : (120 - (last ++ [0]).length % 64) % 64 + 1 = (120 - last.length % 64) % 64 := by
        rw [List.length_append, List.length_singleton]
        omega
      rw [if_pos hdone, ih _ (by omega), List.append_assoc, ← hnext, List.replicate_succ]
      rfl

theorem pushLength_eq (bits : U64) (last : List Byte) {n : ℕ} (h : n ≤ 8) :
    pushLength bits last n =
      .ok (last ++ (List.range n).map fun i => (bits >>> (56 - 8 * i)).setWidth 8) := by
  induction n with
  | zero => simp [pushLength]
  | succ n ih =>
    rw [pushLength, ih (by omega), ok_bind, shrU64_eq (by omega), ok_bind, pure_eq, List.range_succ,
      List.map_append, List.append_assoc]
    rfl

theorem compressFrom_eq (last : List Byte) (v : Vars) (hblocks : last.length % 64 = 0)
    (hstart : start % 64 = 0) (hle : start ≤ last.length) (hfuel : last.length < start + 64 * fuel)
    :
    compressFrom last roundConstants fuel v.list start = .ok (v.absorb (last.drop start)).list := by
  induction fuel generalizing v start with
  | zero => omega
  | succ fuel ih =>
    rw [compressFrom]
    split
    · next hlt =>
      have hle : start + 64 ≤ last.length := by omega
      have hwhole : 64 ≤ (last.drop start).length := by
        rw [List.length_drop]
        omega
      rw [compress_eq v hle, ok_bind, ih _ (by omega) hle (by omega), absorb_of_le hwhole,
        List.drop_drop]
      rfl
    · next hge =>
      rw [List.drop_of_length_le (by omega), absorb_of_lt (by decide)]
      rfl

/-- **The padding**: what `finish_plain` compresses is the rest of the padded message. -/
theorem finishPlain_eq (outer message : List Byte) :
    (holding outer message).finishPlain = .ok (Sha.sha256 message) := by
  have htail := length_tail message
  have hlast : (tail message ++ [128]).length = message.length % 64 + 1 := by
    rw [List.length_append, htail, List.length_singleton]
  have hzeros : (120 - (tail message ++ [128]).length % 64) % 64 = (119 - message.length % 64) % 64
    := by
    rw [hlast]
    omega
  have hbits : (BitVec.ofNat 64 message.length) <<< 3 = BitVec.ofNat 64 (8 * message.length) := by
    apply eq_of_toNat_eq
    rw [toNat_shiftLeft, toNat_ofNat, toNat_ofNat, Nat.shiftLeft_eq]
    omega
  rw [finishPlain]
  show (padZeros 64 (tail message ++ [128]) >>= fun last =>
    shlU64 (BitVec.ofNat 64 message.length) 3 >>= _) = _
  rw [padZeros_eq _ (by omega), ok_bind, hzeros, shlU64_eq (by decide), ok_bind, hbits,
    pushLength_eq _ _ le_rfl, ok_bind]
  let suffix : List Byte := 128 :: List.replicate ((119 - message.length % 64) % 64) 0 ++
    lengthBytes (BitVec.ofNat 64 (8 * message.length))
  have hpad : Sha.pad message = message ++ suffix := List.append_assoc ..
  have hrest : ∀ bits : U64, tail message ++ [(128 : Byte)] ++
      List.replicate ((119 - message.length % 64) % 64) (0 : Byte) ++
      (List.range 8).map (fun i => (bits >>> (56 - 8 * i)).setWidth 8) =
      tail message ++ ((128 : Byte) :: List.replicate ((119 - message.length % 64) % 64) 0 ++
        lengthBytes bits) := by
    intro bits
    rw [List.append_assoc, List.append_assoc]
    rfl
  rw [hrest, Sha.sha256, hpad, absorb_append]
  change (compressFrom (tail message ++ suffix) roundConstants ((tail message ++ suffix).length + 1)
    (initial.absorb message).list 0 >>= _) = _
  generalize hlast' : tail message ++ suffix = last
  have hblocks : last.length % 64 = 0 := by
    rw [← hlast', List.length_append, List.length_append, List.length_cons, List.length_replicate,
      lengthBytes, List.length_map, List.length_range, htail]
    omega
  rw [compressFrom_eq last _ hblocks rfl (Nat.zero_le _) (by omega), ok_bind, List.drop_zero]
  rfl

/-- A keyed hasher is finished by hashing the outer pad and the inner digest. -/
theorem finish_eq (outer message : List Byte) :
    (holding outer message).finish =
      .ok (if outer.length = 0 then Sha.sha256 message
        else Sha.sha256 (outer ++ Sha.sha256 message)) := by
  rw [finish, finishIn, finishPlain_eq, ok_bind]
  show (if outer.length = 0 then _ else _) = _
  by_cases hplain : outer.length = 0
  · rw [if_pos hplain, if_pos hplain, pure_eq]
  · rw [if_neg hplain, if_neg hplain, new_eq]
    show ((holding [] []).update outer >>= _) = _
    rw [update_eq, ok_bind, update_eq, ok_bind, finishIn, finishPlain_eq, ok_bind, List.nil_append]
    rfl

theorem sha256_eq (bytes : List Byte) : Sha256.sha256 bytes = .ok (Sha.sha256 bytes) := by
  rw [Sha256.sha256, new_eq, update_eq, ok_bind, finish_eq, List.nil_append]
  rfl

theorem fillKey_eq (key : List Byte) (h : 64 - key.length < fuel) :
    fillKey fuel key = .ok (key ++ List.replicate (64 - key.length) 0) := by
  induction fuel generalizing key with
  | zero => omega
  | succ fuel ih =>
    rw [fillKey]
    split
    · next hlt =>
      have hnext : 64 - key.length = 64 - (key ++ [0]).length + 1 := by
        rw [List.length_append, List.length_singleton]
        omega
      rw [ih _ (by omega), List.append_assoc, hnext, List.replicate_succ]
      rfl
    · next hge =>
      rw [Nat.sub_eq_zero_of_le (by omega), List.replicate_zero, List.append_nil]
      rfl

/-- **The keyed hasher** starts from the key block's inner pad. -/
theorem hmac_eq (key : List Byte) :
    Sha256.hmac key = .ok (holding ((keyBlock key).map (· ^^^ 0x5c))
      ((keyBlock key).map (· ^^^ 0x36))) := by
  have hkey : (if 64 < key.length then Sha256.sha256 key else return key) =
      .ok (if 64 < key.length then Sha.sha256 key else key) := by
    split
    · exact sha256_eq key
    · rfl
  rw [Sha256.hmac, hkey, ok_bind, fillKey_eq _ (by omega), ok_bind]
  show (new.update ((keyBlock key).map (· ^^^ 0x36)) >>= _) = _
  rw [new_eq, update_eq, ok_bind, List.nil_append]
  rfl

/-! ### Runs -/

/-- What is fed by a sequence of calls. -/
def fed : List Call → List Byte
  | [] => []
  | .update bytes :: calls => bytes ++ fed calls
  | .finish :: calls => fed calls

/-- The hash of what was fed before each `finish`. -/
def hashes (hash : List Byte → List Byte) (message : List Byte) : List Call → List (List Byte)
  | [] => []
  | .update bytes :: calls => hashes hash (message ++ bytes) calls
  | .finish :: calls => hash message :: hashes hash message calls

theorem run_eq (outer message : List Byte) (calls : List Call) :
    (holding outer message).run calls =
      .ok (hashes (fun m => if outer.length = 0 then Sha.sha256 m else Sha.sha256
        (outer ++ Sha.sha256 m))
        message calls, holding outer (message ++ fed calls)) := by
  induction calls generalizing message with
  | nil => rw [fed, List.append_nil]; rfl
  | cons call calls ih =>
    cases call with
    | update bytes => rw [run, update_eq, ok_bind, ih, hashes, fed, List.append_assoc]
    | finish =>
      rw [run, finish_eq, ok_bind, ih, ok_bind]
      rfl

theorem hashes_append (hash : List Byte → List Byte) (pre message : List Byte) (calls : List Call) :
    hashes hash (pre ++ message) calls = hashes (fun m => hash (pre ++ m)) message calls := by
  induction calls generalizing message with
  | nil => rfl
  | cons call calls ih =>
    cases call with
    | update bytes => rw [hashes, hashes, List.append_assoc, ih]
    | finish => rw [hashes, hashes, ih]

theorem hashes_updates (hash : List Byte → List Byte) (message : List Byte)
    (chunks : List (List Byte)) :
    hashes hash message (chunks.map .update ++ [.finish]) = [hash (message ++ chunks.flatten)] := by
  induction chunks generalizing message with
  | nil => rw [List.flatten_nil, List.append_nil]; rfl
  | cons chunk chunks ih =>
    rw [List.map_cons, List.cons_append, hashes, ih, List.flatten_cons, List.append_assoc]

theorem keyBlock_length_pos (key : List Byte) : (keyBlock key).length ≠ 0 := by
  unfold keyBlock
  generalize (if 64 < key.length then Sha.sha256 key else key) = k
  show (k ++ List.replicate (64 - k.length) 0).length ≠ 0
  rw [List.length_append, List.length_replicate]
  omega

/-- **The digest does not depend on how the message is fed.** However calls of `update` and `finish`
follow each other on a new hasher, each `finish` gives the SHA-256 of what was fed before it, and on
a hasher of `hmac` the HMAC-SHA256 under the key; afterwards the partial block is short. Updates
with the pieces of a message, and then `finish`, give its digest. -/
theorem stream_exact (key : List Byte) (calls : List Call) :
    (∃ h, new.run calls = .ok (hashes Sha.sha256 [] calls, h) ∧ h.block.length < 64) ∧
      (∃ h, (do (← Sha256.hmac key).run calls) = .ok (hashes (Sha.hmac key) [] calls, h) ∧
        h.block.length < 64) ∧
      ∀ chunks : List (List Byte),
        (∃ h, new.run (chunks.map .update ++ [.finish]) = .ok ([Sha.sha256 chunks.flatten], h)) ∧
        ∃ h, (do (← Sha256.hmac key).run (chunks.map Call.update ++ [Call.finish])) =
          .ok ([Sha.hmac key chunks.flatten], h) := by
  have hblock : ∀ outer message, (holding outer message).block.length < 64 := fun outer message =>
    lt_of_eq_of_lt (length_tail message) (Nat.mod_lt _ (by decide))
  have hplain : ∀ calls, new.run calls =
      .ok (hashes Sha.sha256 [] calls, holding [] ([] ++ fed calls)) := fun calls => by
    rw [new_eq, run_eq]
    rfl
  have hkeyed : ∀ calls, (do (← Sha256.hmac key).run calls) = .ok (hashes (Sha.hmac key) [] calls,
      holding ((keyBlock key).map (· ^^^ 0x5c)) ((keyBlock key).map (· ^^^ 0x36) ++ fed calls)) :=
        by
    intro calls
    have hpad : ((keyBlock key).map (· ^^^ 0x5c)).length ≠ 0 := by
      rw [List.length_map]
      exact keyBlock_length_pos key
    have hhash := hashes_append (fun m => Sha.sha256
      ((keyBlock key).map (· ^^^ 0x5c) ++ Sha.sha256 m))
      ((keyBlock key).map (· ^^^ 0x36)) [] calls
    rw [List.append_nil] at hhash
    rw [hmac_eq, ok_bind, run_eq]
    simp only [if_neg hpad]
    rw [hhash]
    rfl
  refine ⟨⟨_, hplain calls, hblock _ _⟩, ⟨_, hkeyed calls, hblock _ _⟩, fun chunks => ⟨?_, ?_⟩⟩
  · have h := hplain (chunks.map Call.update ++ [Call.finish])
    rw [hashes_updates, List.nil_append] at h
    exact ⟨_, h⟩
  · have h := hkeyed (chunks.map Call.update ++ [Call.finish])
    rw [hashes_updates, List.nil_append] at h
    exact ⟨_, h⟩

end Sha256

end HdLang.Digest
