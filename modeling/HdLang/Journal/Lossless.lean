import HdLang.Journal.Payloads
import HdLang.Journal.Torn
import Mathlib.Data.Finset.Card

/-!
# The recorder loses nothing

While recording is on, the journal is rows that decode to what was recorded (`Written`), and each
call site that was named leads to the method of its import (`Sited`). `push_spec` is what framing
one row does to the first, `callMethod_spec` what a call does to the second; `record_written` puts
them together along a run.
-/

namespace HdLang.Journal

open Cursor LittleEndian List Option Recorder Nat

/-- The rows decode to the events, and take the methods named from `ms` to `ms'`. -/
inductive Decodes : List Row → Methods → List Event → Methods → Prop
  | nil (ms : Methods) : Decodes [] ms [] ms
  | cons {row : Row} {rows : List Row} {e : Event} {es : List Event} {ms ms' ms'' : Methods}
    (hrow : decodeRow row ms = .ok (e, ms')) (hrest : Decodes rows ms' es ms'') :
    Decodes (row :: rows) ms (e :: es) ms''

variable {rows : List Row} {row : Row} {e : Event} {es : List Event} {ms ms' ms'' : Methods}

theorem Decodes.concat (h : Decodes rows ms es ms') (hrow : decodeRow row ms' = .ok (e, ms'')) :
    Decodes (rows ++ [row]) ms (es ++ [e]) ms'' := by
  induction h with
  | nil => exact Decodes.cons hrow (Decodes.nil _)
  | cons hfirst _ ih => exact Decodes.cons hfirst (ih hrow)

theorem Decodes.decodeFrom_eq (h : Decodes rows ms es ms') : decodeFrom rows ms = .ok (.ok es) := by
  induction h with
  | nil => rfl
  | cons hrow _ ih =>
    rw [decodeFrom, hrow]
    show (decodeFrom _ _ >>= _) = _
    rw [ih]
    rfl

theorem Decodes.front {rest : List Row} (h : Decodes (rows ++ rest) ms es ms') :
    ∃ front names, front <+: es ∧ Decodes rows ms front names := by
  induction rows generalizing ms es with
  | nil => exact ⟨[], ms, nil_prefix, .nil ms⟩
  | cons row rows ih =>
    cases h with
    | cons hrow hrest =>
      obtain ⟨front, names, hfront, hdecodes⟩ := ih hrest
      exact ⟨_ :: front, names, cons_prefix_cons.mpr ⟨rfl, hfront⟩, .cons hrow hdecodes⟩

theorem decodeRow_of_reads {kind : RowKind} {payload : Bytes} (ix : UInt64)
    (h : Reads SIZES (fun b => getEvent ms b kind) payload (e, ms')) (hlen : payload.length < SIZES)
    : decodeRow ⟨kind, ix, payload⟩ ms = .ok (e, ms') := by
  have hrun := h.run_eq (Spans.whole payload) hlen
  rw [decodeRow]
  show ((getEvent ms payload kind).run 0 >>= _) = _
  rw [hrun]
  show (if payload.length = payload.length then _ else _ : Except Halt (Event × Methods)) = _
  rw [if_pos rfl]
  rfl

/-! ### One row -/

/-- The journal is whole rows that decode to `es` and name the methods `names`. -/
structure Written (r : Recorder) (names : Methods) (es : List Event) : Prop where
  rows : ∃ rows, r.bytes = journal rows ∧ Numbered 0 rows ∧ rows.length = r.next.toNat ∧
    Decodes rows [] es names
  fits : r.bytes.length < SIZES

theorem Written.read (r : Recorder) (h : Written r ms es) :
    ∃ rows, read r.bytes = .ok (rows, r.bytes.length) ∧ decode rows = .ok (.ok es) := by
  obtain ⟨rows, hbytes, hnum, -, hdecodes⟩ := h.rows
  refine ⟨rows, ?_, hdecodes.decodeFrom_eq⟩
  have hfits := h.fits
  rw [hbytes] at hfits ⊢
  exact read_of_chain (chain_journal hnum) hfits

variable {r : Recorder} {kind : RowKind}

/-- A row under the cap is the journal's next, and nothing else of the recorder changes. -/
theorem push_spec (hon : (r.push kind).state = .on) (h : Written r ms es)
    (hreads : Reads SIZES (fun b => getEvent ms b kind) r.row (e, ms')) :
    Written (r.push kind) ms' (es ++ [e]) ∧ (r.push kind).bytes.length ≤ r.cap.toNat ∧
      (r.push kind).row = [] ∧ (r.push kind).sites = r.sites ∧
      (r.push kind).methods = r.methods ∧ (r.push kind).polls = r.polls ∧
      (r.push kind).cap = r.cap := by
  rw [push] at hon ⊢
  split at hon
  next hcap => exact absurd hon (by simp)
  next hcap =>
    rw [if_neg hcap]
    obtain ⟨rows, hbytes, hnum, hcount, hdecodes⟩ := h.rows
    have hlen := length_appendParts r.bytes kind r.next r.row
    have hle : (appendParts r.bytes kind r.next r.row).length ≤ r.cap.toNat := by
      rw [hlen]
      exact not_lt.mp hcap
    have hfits : (appendParts r.bytes kind r.next r.row).length < SIZES :=
      lt_of_le_of_lt hle r.cap.toNat_lt
    have hrows : journal (rows ++ [⟨kind, r.next, r.row⟩]) = appendParts r.bytes kind r.next r.row := by
      rw [journal_append, appendParts_eq, hbytes]
      rfl
    have hnum' : Numbered 0 (rows ++ [⟨kind, r.next, r.row⟩]) :=
      numbered_append.mpr ⟨hnum, by rw [hcount, zero_add], trivial⟩
    -- every row takes a byte at least, so their number is a `u64`
    have hnext : (r.next + 1).toNat = r.next.toNat + 1 := by
      have hmany := (chain_journal hnum').length_le
      rw [hrows, length_append, hcount, length_singleton] at hmany
      rw [UInt64.toNat_add]
      exact mod_eq_of_lt (lt_of_le_of_lt hmany hfits)
    have hrow := decodeRow_of_reads r.next hreads (by omega)
    refine ⟨⟨⟨_, hrows.symm, hnum', ?_, hdecodes.concat hrow⟩, hfits⟩, hle, rfl, rfl, rfl, rfl, rfl⟩
    rw [length_append, hcount, length_singleton]
    exact hnext.symm

/-! ### Call sites -/

/-- The sites named so far, in that order, lead to their methods, and the others to none. -/
structure Sited (r : Recorder) (named : List ℕ) : Prop where
  methods : r.methods.toNat = named.length
  sites : ∀ s, (r.sites.getD s 0).toNat = if s ∈ named then named.idxOf s + 1 else 0
  nodup : named.Nodup

theorem resize_getD (sites : List UInt32) (len s : ℕ) :
    (Recorder.resize sites len).getD s 0 = sites.getD s 0 := by
  rw [getD_eq_getElem?_getD, getD_eq_getElem?_getD, resize]
  by_cases h : s < sites.length
  · rw [getElem?_append_left h]
  · rw [getElem?_append_right (not_lt.mp h), getElem?_replicate, getElem?_eq_none (not_lt.mp h)]
    split <;> rfl

/-- The sites with room for one more, and what a call does to them. -/
theorem callMethod_eq (r : Recorder) (site : ℕ) (module name : String) :
    ∃ sites, site < sites.length ∧ (∀ s, sites.getD s 0 = r.sites.getD s 0) ∧
      r.callMethod site module name =
        if r.sites.getD site 0 = 0 then
          { r with
            row := r.row ++ ulebBytes r.methods.toUInt64 ++ sized (asBytes module) ++
              sized (asBytes name)
            methods := r.methods + 1
            sites := sites.set site (r.methods + 1) }
        else
          { r with row := r.row ++ ulebBytes (r.sites.getD site 0 - 1).toUInt64, sites } := by
  obtain ⟨sites, hsites, hlen, hget⟩ : ∃ sites,
      (if r.sites.length ≤ site then resize r.sites (site + 1) else r.sites) = sites ∧
      site < sites.length ∧ ∀ s, sites.getD s 0 = r.sites.getD s 0 := by
    split
    next hshort =>
      refine ⟨_, rfl, ?_, resize_getD r.sites (site + 1)⟩
      rw [resize, length_append, length_replicate]
      omega
    next hlong => exact ⟨_, rfl, not_le.mp hlong, fun _ => rfl⟩
  have hsite : sites[site]? = some (r.sites.getD site 0) := by
    rw [← hget, getD_eq_getElem?_getD, getElem?_eq_getElem hlen, getD_some]
  refine ⟨sites, hlen, hget, ?_⟩
  simp only [callMethod, hsites, hsite, putUleb_add, sized, append_assoc]

section Sites

variable {named : List ℕ} {site : ℕ} {module name : String} {imports : ℕ → String × String}

/-- A call writes the number of its import's method, and the names when the site is new. -/
theorem callMethod_spec (h : Sited r named) (hrow : r.row = [])
    (himport : imports site = (module, name))
    (hroom : site ∉ named → named.length + 1 < 4294967296) :
    ∃ method names named', r.callMethod site module name =
        { r with
          row := ulebBytes method ++ names
          methods := (r.callMethod site module name).methods
          sites := (r.callMethod site module name).sites } ∧
      Sited (r.callMethod site module name) named' ∧
      Reads SIZES (fun b => nameMethod b (named.map imports) method) names (named'.map imports) ∧
      (named'.map imports)[method.toNat]? = some (module, name) ∧
      named' = if site ∈ named then named else named ++ [site] := by
  obtain ⟨sites, hlen, hget, heq⟩ := callMethod_eq r site module name
  rw [heq, hrow]
  have hvalue := h.sites site
  by_cases hmem : site ∈ named
  · -- the site leads to a method before the last
    rw [if_pos hmem] at hvalue ⊢
    have hidx : named.idxOf site < named.length := idxOf_lt_length_iff.mpr hmem
    have hpred : (r.sites.getD site 0 - 1).toUInt64.toNat = named.idxOf site := by
      have hle : (1 : UInt32) ≤ r.sites.getD site 0 := by
        show (1 : UInt32).toNat ≤ (r.sites.getD site 0).toNat
        rw [hvalue]
        exact Nat.le_add_left 1 _
      rw [UInt32.toNat_toUInt64, UInt32.toNat_sub_of_le _ _ hle, hvalue]
      rfl
    have hne : r.sites.getD site 0 ≠ 0 := by
      intro hzero
      rw [hzero] at hvalue
      exact absurd hvalue (by simp)
    rw [if_neg hne]
    refine ⟨_, [], named, by rw [append_nil, nil_append], ⟨h.methods, ?_, h.nodup⟩, ?_, ?_, rfl⟩
    · intro s
      rw [hget]
      exact h.sites s
    · apply nameMethod_old
      rw [hpred, length_map]
      omega
    · rw [hpred, getElem?_map, getElem?_eq_getElem hidx, getElem_idxOf]
      exact congrArg some himport
  · rw [if_neg hmem] at hvalue ⊢
    have hzero : r.sites.getD site 0 = 0 := UInt32.toNat_inj.mp hvalue
    have hcount : (r.methods + 1).toNat = named.length + 1 := by
      rw [UInt32.toNat_add, h.methods]
      exact Nat.mod_eq_of_lt (hroom hmem)
    have hmethod : r.methods.toUInt64.toNat = (named.map imports).length := by
      rw [UInt32.toNat_toUInt64, h.methods, length_map]
    rw [if_pos hzero]
    refine ⟨r.methods.toUInt64, sized (asBytes module) ++ sized (asBytes name), named ++ [site], ?_,
      ⟨?_, ?_, ?_⟩, ?_, ?_, rfl⟩
    · simp only [append_assoc, nil_append]
    · rw [length_append, length_singleton]
      exact hcount
    · intro s
      by_cases hs : s = site
      · rw [hs, getD_eq_getElem?_getD, getElem?_set_self hlen, getD_some, hcount, if_pos (by simp),
          idxOf_append, if_neg hmem, idxOf_cons_self, Nat.zero_add]
      · have hother : (sites.set site (r.methods + 1)).getD s 0 = r.sites.getD s 0 := by
          rw [← hget, getD_eq_getElem?_getD, getElem?_set_ne (Ne.symm hs), getD_eq_getElem?_getD]
        show ((sites.set site (r.methods + 1)).getD s 0).toNat = _
        rw [hother, h.sites s]
        by_cases hin : s ∈ named
        · rw [if_pos hin, if_pos (mem_append_left _ hin), idxOf_append, if_pos hin]
        · rw [if_neg hin, if_neg]
          simp [hin, hs]
    · exact nodup_append.mpr ⟨h.nodup, by simp, by
        intro a ha b hb
        rw [mem_singleton] at hb
        rintro rfl
        exact hmem (hb ▸ ha)⟩
    · rw [map_append, map_singleton, himport]
      exact nameMethod_new hmethod module name
    · rw [hmethod, map_append, map_singleton, himport, getElem?_append_right (le_refl _),
        Nat.sub_self]
      rfl

end Sites

/-! ### One call -/

/-- The kind of row that a call writes. -/
def Op.rowKind : Op → Option RowKind
  | .call _ _ _ _ _ _ => some .call
  | .finish _ _ _ => some .finish
  | .block _ => some .block
  | .abort _ => some .abort
  | .poll => none
  | .wake _ => some .wake
  | .cancel => some .cancel
  | .input _ _ _ => some .input
  | .«end» _ => some .«end»
  | .takeNotice => none
  | .setCap _ => none

section Calls

variable (requestDigest : Bytes → UInt64) (hash128 : Bytes → U128)

/-- The recorder before it frames the row of a call: the payload is in `row`. -/
def Recorder.prepare (r : Recorder) : Op → Recorder
  | .call site module name request value result =>
    let r := r.callMethod site module name
    { r with row := r.row ++ (requestBytes requestDigest request ++ replyBytes value result) }
  | .finish handle value result =>
    { r with row := r.row ++ (ulebBytes handle.toUInt64 ++ replyBytes value result) }
  | .block handles => { r with row := r.row ++ handlesBytes handles }
  | .abort handle => { r with row := r.row ++ ulebBytes handle.toUInt64 }
  | .poll => { r with polls := r.polls + 1 }
  | .wake handles => { r with row := r.row ++ (ulebBytes r.polls ++ handlesBytes handles) }
  | .cancel => { r with row := r.row ++ ulebBytes r.polls }
  | .input number source module =>
    { r with
      row := r.row ++ (ulebBytes number.toUInt64 ++
        (toLe 16 (hash128 source).toNat ++ toLe 16 (hash128 module).toNat))
      polls := 0 }
  | .«end» end' => { r with row := r.row ++ endBytes end' }
  | .takeNotice => r
  | .setCap cap => r.setCap cap

variable {requestDigest hash128} {op : Op}

/-- While recording is on, a call frames the row it prepared, if any. -/
theorem apply_on (hon : r.state = .on) :
    r.apply requestDigest hash128 op =
      match op.rowKind with
      | some kind => (r.prepare requestDigest hash128 op).push kind
      | none => r.prepare requestDigest hash128 op := by
  have hoff : r.state ≠ .off false := by
    rw [hon]
    decide
  cases op with
  | call => simp only [apply, call, hon, ne_eq, not_true, if_false, Op.rowKind, prepare,
      putReply_eq, putRequest_eq, append_assoc]
  | finish => simp only [apply, finish, hon, if_true, Op.rowKind, prepare, putReply_eq, putUleb_add,
      append_assoc]
  | block => simp only [apply, block, hon, if_true, Op.rowKind, prepare, putHandles_eq]
  | abort => simp only [apply, abort, hon, if_true, Op.rowKind, prepare, putUleb_add]
  | poll => rfl
  | wake => simp only [apply, wake, hon, if_true, Op.rowKind, prepare, putHandles_eq, putUleb_add,
      append_assoc]
  | cancel => simp only [apply, cancel, hon, if_true, Op.rowKind, prepare, putUleb_add]
  | input => simp only [apply, input, hon, if_true, Op.rowKind, prepare, putUleb_add, append_assoc]
  | «end» => simp only [apply, finished, hon, if_true, Op.rowKind, prepare]
  | takeNotice => simp only [apply, takeNotice, if_neg hoff, Op.rowKind, prepare]
  | setCap => rfl

/-- Once off, recording stays off, whatever is called, and the bytes stay. -/
theorem apply_off (requestDigest : Bytes → UInt64) (hash128 : Bytes → U128) (hoff : r.state ≠ .on)
    (op : Op) :
    (r.apply requestDigest hash128 op).state ≠ .on ∧
      (r.apply requestDigest hash128 op).bytes = r.bytes := by
  cases op with
  | takeNotice =>
    rw [apply, takeNotice]
    split
    · exact ⟨by simp, rfl⟩
    · exact ⟨hoff, rfl⟩
  | _ => simp [apply, call, finish, block, abort, poll, wake, cancel, input, finished, setCap, hoff]

theorem callMethod_frame (r : Recorder) (site : ℕ) (module name : String) :
    (r.callMethod site module name).bytes = r.bytes ∧
      (r.callMethod site module name).next = r.next ∧
      (r.callMethod site module name).state = r.state ∧
      (r.callMethod site module name).polls = r.polls ∧
      (r.callMethod site module name).cap = r.cap := by
  obtain ⟨sites, -, -, heq⟩ := callMethod_eq r site module name
  rw [heq]
  split <;> exact ⟨rfl, rfl, rfl, rfl, rfl⟩

theorem prepare_frame (requestDigest : Bytes → UInt64) (hash128 : Bytes → U128) (r : Recorder)
    (op : Op) :
    (r.prepare requestDigest hash128 op).bytes = r.bytes ∧
      (r.prepare requestDigest hash128 op).next = r.next ∧
      (r.prepare requestDigest hash128 op).state = r.state ∧
      (r.prepare requestDigest hash128 op).polls = op.polls r.polls := by
  cases op with
  | call site module name =>
    obtain ⟨hbytes, hnext, hstate, hpolls, -⟩ := callMethod_frame r site module name
    exact ⟨hbytes, hnext, hstate, hpolls⟩
  | _ => exact ⟨rfl, rfl, rfl, rfl⟩

end Calls

/-! ### Runs -/

section Runs

variable (imports : ℕ → String × String) (called : Finset ℕ)

/-- A call goes through a site of its import, and its arguments are a slice. -/
def Op.Fair : Op → Prop
  | .call site module name request _ _ =>
    imports site = (module, name) ∧ site ∈ called ∧ request.length < SLICES
  | _ => True

/-- Recording is on: nothing is left of the last row, and the journal holds the events. -/
def Recorded (r : Recorder) (es : List Event) : Prop :=
  r.row = [] ∧ ∃ named, Sited r named ∧ Written r (named.map imports) es ∧ ∀ s ∈ named, s ∈ called

variable {requestDigest : Bytes → UInt64} {hash128 : Bytes → U128} {imports called} {op : Op}
  {named : List ℕ}

/-- What a call puts in the row reads as its event. -/
theorem prepare_reads (hrow : r.row = []) (hsited : Sited r named) (hfair : op.Fair imports called)
    (hcount : called.card < 4294967296) (hnamed : ∀ s ∈ named, s ∈ called)
    (hkind : op.rowKind = some kind) (hevent : op.event requestDigest hash128 r.polls = some e) :
    ∃ named', Sited (r.prepare requestDigest hash128 op) named' ∧ (∀ s ∈ named', s ∈ called) ∧
      Reads SIZES (fun b => getEvent (named.map imports) b kind)
        (r.prepare requestDigest hash128 op).row (e, named'.map imports) := by
  have hsame : ∀ {bs}, Reads SIZES (fun b => getEvent (named.map imports) b kind) bs
      (e, named.map imports) → r.row ++ bs = (r.prepare requestDigest hash128 op).row →
      Sited (r.prepare requestDigest hash128 op) named → ∃ named',
        Sited (r.prepare requestDigest hash128 op) named' ∧ (∀ s ∈ named', s ∈ called) ∧
        Reads SIZES (fun b => getEvent (named.map imports) b kind)
          (r.prepare requestDigest hash128 op).row (e, named'.map imports) := by
    intro bs hreads hbs hsited'
    rw [hrow, nil_append] at hbs
    exact ⟨named, hsited', hnamed, hreads.congr hbs rfl⟩
  have hsites : r.methods = (r.prepare requestDigest hash128 op).methods →
      r.sites = (r.prepare requestDigest hash128 op).sites →
      Sited (r.prepare requestDigest hash128 op) named := by
    intro hmethods hsites
    refine ⟨hmethods ▸ hsited.methods, fun s => ?_, hsited.nodup⟩
    rw [← hsites]
    exact hsited.sites s
  cases op with
  | call site module name request value result =>
    cases hkind
    cases hevent
    obtain ⟨himport, hsite, hrequest⟩ := hfair
    have hroom : site ∉ named → named.length + 1 < 4294967296 := by
      intro hnew
      have hnodup : (site :: named).Nodup := nodup_cons.mpr ⟨hnew, hsited.nodup⟩
      have hsub : (site :: named).toFinset ⊆ called := by
        intro s hs
        rcases mem_cons.mp (mem_toFinset.mp hs) with rfl | hs'
        · exact hsite
        · exact hnamed s hs'
      have hcard := Finset.card_le_card hsub
      rw [toFinset_card_of_nodup hnodup, length_cons] at hcard
      omega
    obtain ⟨method, names, named', heq, hsited', hreads, hmethod, hnamed'⟩ :=
      callMethod_spec hsited hrow himport hroom
    refine ⟨named', ⟨hsited'.methods, hsited'.sites, hsited'.nodup⟩, ?_, ?_⟩
    · rw [hnamed']
      intro s hs
      split at hs
      · exact hnamed s hs
      · rcases mem_append.mp hs with hs' | hs'
        · exact hnamed s hs'
        · rw [mem_singleton.mp hs']
          exact hsite
    · have hcall := getCall_reads requestDigest (lt_trans hrequest (by decide)) hreads hmethod value
        result
      refine hcall.congr ?_ rfl
      show _ = (r.callMethod site module name).row ++ _
      rw [heq, append_assoc]
  | finish handle value result =>
    cases hkind
    cases hevent
    exact hsame (finish_reads _ handle value result) rfl (hsites rfl rfl)
  | block handles =>
    cases hkind
    cases hevent
    exact hsame (block_reads _ handles) rfl (hsites rfl rfl)
  | abort handle =>
    cases hkind
    cases hevent
    exact hsame (abort_reads _ handle) rfl (hsites rfl rfl)
  | poll => cases hkind
  | wake handles =>
    cases hkind
    cases hevent
    exact hsame (wake_reads _ r.polls handles) rfl (hsites rfl rfl)
  | cancel =>
    cases hkind
    cases hevent
    exact hsame (cancel_reads _ r.polls) rfl (hsites rfl rfl)
  | input number source module =>
    cases hkind
    cases hevent
    exact hsame (input_reads _ number (hash128 source) (hash128 module)) rfl (hsites rfl rfl)
  | «end» end' =>
    cases hkind
    cases hevent
    exact hsame (end_reads _ end') rfl (hsites rfl rfl)
  | takeNotice => cases hkind
  | setCap cap => cases hkind

theorem Written.congr {q : Recorder} (h : Written r ms es) (hbytes : q.bytes = r.bytes)
    (hnext : q.next = r.next) : Written q ms es := by
  refine ⟨?_, ?_⟩
  · rw [hbytes, hnext]
    exact h.rows
  · rw [hbytes]
    exact h.fits

/-- One call while recording is on, when it stays on: its event is recorded. -/
theorem apply_recorded (hon : r.state = .on) (h : Recorded imports called r es)
    (hfair : op.Fair imports called) (hcount : called.card < 4294967296)
    (hon' : (r.apply requestDigest hash128 op).state = .on) :
    Recorded imports called (r.apply requestDigest hash128 op)
        (es ++ (op.event requestDigest hash128 r.polls).toList) ∧
      (r.apply requestDigest hash128 op).polls = op.polls r.polls := by
  obtain ⟨hrow, named, hsited, hwritten, hnamed⟩ := h
  obtain ⟨hbytes, hnext, hstate, hpolls⟩ := prepare_frame requestDigest hash128 r op
  rw [apply_on hon] at hon' ⊢
  cases hkind : op.rowKind with
  | none =>
    have hevent : op.event requestDigest hash128 r.polls = none := by
      cases op <;> first | rfl | cases hkind
    have hprep : (r.prepare requestDigest hash128 op).row = r.row ∧
        Sited (r.prepare requestDigest hash128 op) named := by
      cases op with
      | poll => exact ⟨rfl, hsited.methods, hsited.sites, hsited.nodup⟩
      | takeNotice => exact ⟨rfl, hsited⟩
      | setCap cap => exact ⟨rfl, hsited.methods, hsited.sites, hsited.nodup⟩
      | _ => cases hkind
    rw [hevent, toList_none, append_nil]
    exact ⟨⟨hprep.1.trans hrow, named, hprep.2, hwritten.congr hbytes hnext, hnamed⟩, hpolls⟩
  | some kind =>
    obtain ⟨e, hevent⟩ : ∃ e, op.event requestDigest hash128 r.polls = some e := by
      cases op <;> first | exact ⟨_, rfl⟩ | cases hkind
    rw [hkind] at hon'
    obtain ⟨named', hsited', hnamed', hreads⟩ :=
      prepare_reads hrow hsited hfair hcount hnamed hkind hevent
    obtain ⟨hwritten', -, hrow', hsites, hmethods, hpolls', -⟩ :=
      push_spec hon' (hwritten.congr hbytes hnext) hreads
    rw [hevent, toList_some]
    refine ⟨⟨hrow', named', ⟨?_, fun s => ?_, hsited'.nodup⟩, hwritten', hnamed'⟩,
      hpolls'.trans hpolls⟩
    · rw [hmethods]
      exact hsited'.methods
    · rw [hsites]
      exact hsited'.sites s

theorem foldl_off (hoff : r.state ≠ .on) (ops : List Op) :
    (ops.foldl (Recorder.apply requestDigest hash128) r).state ≠ .on ∧
      (ops.foldl (Recorder.apply requestDigest hash128) r).bytes = r.bytes := by
  induction ops generalizing r with
  | nil => exact ⟨hoff, rfl⟩
  | cons op ops ih =>
    obtain ⟨hoff', hbytes⟩ := apply_off requestDigest hash128 hoff op
    obtain ⟨hlater, hbytes'⟩ := ih hoff'
    exact ⟨hlater, hbytes'.trans hbytes⟩

/-- A run that ends with recording on recorded the events of all its calls. -/
theorem foldl_recorded {ops : List Op} (hon : r.state = .on) (h : Recorded imports called r es)
    (hfair : ∀ op ∈ ops, op.Fair imports called) (hcount : called.card < 4294967296)
    (hon' : (ops.foldl (Recorder.apply requestDigest hash128) r).state = .on) :
    Recorded imports called (ops.foldl (Recorder.apply requestDigest hash128) r)
      (es ++ events requestDigest hash128 r.polls ops) := by
  induction ops generalizing r es with
  | nil =>
    rw [events, append_nil]
    exact h
  | cons op ops ih =>
    have hstep : (r.apply requestDigest hash128 op).state = .on := by
      by_contra hoff
      exact (foldl_off hoff ops).1 hon'
    obtain ⟨hrecorded, hpolls⟩ := apply_recorded hon h (hfair op mem_cons_self) hcount hstep
    rw [events, ← append_assoc, ← hpolls]
    exact ih hstep hrecorded (fun op h => hfair op (mem_cons_of_mem _ h)) hon'

theorem new_recorded (imports : ℕ → String × String) (called : Finset ℕ) {cap : UInt64}
    {execution : U128} (hon : (Recorder.new cap execution).state = .on) :
    Recorded imports called (Recorder.new cap execution) [.header FORMAT execution] ∧
      (Recorder.new cap execution).polls = 0 := by
  rw [new] at hon ⊢
  have hempty : Written ⟨[], cap, 0, [], 0, putUleb [] FORMAT ++ toLe 16 execution.toNat, 0, .on⟩
      [] [] := ⟨⟨[], rfl, trivial, rfl, Decodes.nil []⟩, show 0 < SIZES by decide⟩
  obtain ⟨hwritten, -, hrow, hsites, hmethods, hpolls, -⟩ := push_spec hon hempty
    ((header_reads [] FORMAT execution).congr (by rw [putUleb_add, nil_append]) rfl)
  refine ⟨⟨hrow, [], ⟨?_, fun s => ?_, nodup_nil⟩, hwritten, by simp⟩, hpolls⟩
  · rw [hmethods]
    rfl
  · rw [hsites]
    rfl

theorem apply_cap (requestDigest : Bytes → UInt64) (hash128 : Bytes → U128)
    (hop : ∀ cap, op ≠ .setCap cap) :
    (r.apply requestDigest hash128 op).cap = r.cap := by
  by_cases hon : r.state = .on
  · have hprep : (r.prepare requestDigest hash128 op).cap = r.cap := by
      cases op with
      | call site module name => exact (callMethod_frame r site module name).2.2.2.2
      | setCap cap => exact absurd rfl (hop cap)
      | _ => rfl
    rw [apply_on hon]
    cases op.rowKind with
    | none => exact hprep
    | some kind =>
      show ((r.prepare requestDigest hash128 op).push kind).cap = r.cap
      rw [push]
      split <;> exact hprep
  · cases op with
    | setCap cap => exact absurd rfl (hop cap)
    | takeNotice =>
      rw [apply, takeNotice]
      split <;> rfl
    | _ => simp [apply, call, finish, block, abort, poll, wake, cancel, input, finished, hon]

theorem push_length_le (r : Recorder) (kind : RowKind) :
    (r.push kind).bytes.length ≤ (r.push kind).cap.toNat := by
  rw [push]
  split
  next => exact zero_le _
  next hcap =>
    show (appendParts r.bytes kind r.next r.row).length ≤ r.cap.toNat
    rw [length_appendParts]
    exact not_lt.mp hcap

/-- A call but for a change of the cap keeps the journal under it. -/
theorem apply_length_le (hop : ∀ cap, op ≠ .setCap cap) (h : r.bytes.length ≤ r.cap.toNat) :
    (r.apply requestDigest hash128 op).bytes.length ≤
      (r.apply requestDigest hash128 op).cap.toNat := by
  by_cases hon : r.state = .on
  · cases hkind : op.rowKind with
    | none =>
      rw [apply_cap requestDigest hash128 hop, apply_on hon, hkind]
      show (r.prepare requestDigest hash128 op).bytes.length ≤ r.cap.toNat
      rw [(prepare_frame requestDigest hash128 r op).1]
      exact h
    | some kind =>
      rw [apply_on hon, hkind]
      exact push_length_le _ kind
  · rw [(apply_off requestDigest hash128 hon op).2, apply_cap requestDigest hash128 hop]
    exact h

theorem foldl_length_le (requestDigest : Bytes → UInt64) (hash128 : Bytes → U128) {ops : List Op}
    (hops : ∀ cap, Op.setCap cap ∉ ops) (h : r.bytes.length ≤ r.cap.toNat) :
    (ops.foldl (Recorder.apply requestDigest hash128) r).bytes.length ≤ r.cap.toNat := by
  induction ops generalizing r with
  | nil => exact h
  | cons op ops ih =>
    have hop : ∀ cap, op ≠ .setCap cap := by
      rintro cap rfl
      exact hops cap mem_cons_self
    rw [foldl_cons, ← apply_cap requestDigest hash128 hop]
    exact ih (fun cap h => hops cap (mem_cons_of_mem _ h)) (apply_length_le hop h)

/-- **Lossless recording.** When the calls through a site are all of one import, and less than
`2 ^ 32` sites are called, a journal stays under its cap as long as that is not changed; once off, it
is off for good; and while it is on, all of it reads back, as the events of the calls in order. -/
theorem record_lossless (imports : ℕ → String × String) (called : Finset ℕ) (cap : UInt64)
    (execution : U128) {ops : List Op} (hfair : ∀ op ∈ ops, op.Fair imports called) (hcount : called.card < 4294967296) :
    ((∀ c, Op.setCap c ∉ ops) →
      (record requestDigest hash128 cap execution ops).bytes.length ≤ cap.toNat) ∧
    ((record requestDigest hash128 cap execution ops).state ≠ .on →
      ∀ more, (record requestDigest hash128 cap execution (ops ++ more)).state ≠ .on ∧
        (record requestDigest hash128 cap execution (ops ++ more)).bytes =
          (record requestDigest hash128 cap execution ops).bytes) ∧
    ((record requestDigest hash128 cap execution ops).state = .on →
      ∃ rows, read (record requestDigest hash128 cap execution ops).bytes =
          .ok (rows, (record requestDigest hash128 cap execution ops).bytes.length) ∧
        decode rows =
          .ok (.ok (.header FORMAT execution :: events requestDigest hash128 0 ops))) := by
  refine ⟨fun hops => ?_, fun hoff more => ?_, fun hon => ?_⟩
  · have hcap : (Recorder.new cap execution).cap = cap := by
      rw [Recorder.new, Recorder.push]
      split <;> rfl
    have hnew := push_length_le
      ⟨[], cap, 0, [], 0, putUleb [] FORMAT ++ toLe 16 execution.toNat, 0, .on⟩ .header
    have h := foldl_length_le requestDigest hash128 hops
      (show (Recorder.new cap execution).bytes.length ≤ _ from hnew)
    rwa [hcap] at h
  · rw [record, List.foldl_append]
    exact foldl_off hoff more
  · have hnew : (Recorder.new cap execution).state = .on := by
      by_contra hoff
      exact (foldl_off hoff ops).1 hon
    obtain ⟨hrecorded, hpolls⟩ := new_recorded imports called hnew
    obtain ⟨-, named, -, hwritten, -⟩ := foldl_recorded hnew hrecorded hfair hcount hon
    rw [hpolls] at hwritten
    exact hwritten.read

/-- Two sites of two imports, and a reply with bytes. -/
theorem record_lossless_two :
    ∃ rows, read (record (fun _ => 0) (fun _ => 0) 1000 7
        [.call 0 "a" "b" [1] (.int 5) none, .call 1 "c" "d" [] (.pair 0 1) (some [9])]).bytes =
          .ok (rows, (record (fun _ => 0) (fun _ => 0) 1000 7
            [.call 0 "a" "b" [1] (.int 5) none,
              .call 1 "c" "d" [] (.pair 0 1) (some [9])]).bytes.length) ∧
      decode rows = .ok (.ok [.header FORMAT 7, .call "a" "b" (.args [1]) (.int 5) none,
        .call "c" "d" (.args []) (.pair 0 1) (some [9])]) :=
  (record_lossless (fun s => if s = 0 then ("a", "b") else ("c", "d")) {0, 1} 1000 7 (by simp [Op.Fair, SLICES]) (by decide)).2.2 (by decide +kernel)

/-- A site that is called for a second import records the first one again. -/
theorem record_two_imports :
    ¬∀ ops : List Op, (record (fun _ => 0) (fun _ => 0) 1000 7 ops).state = .on →
      ∃ rows, read (record (fun _ => 0) (fun _ => 0) 1000 7 ops).bytes =
          .ok (rows, (record (fun _ => 0) (fun _ => 0) 1000 7 ops).bytes.length) ∧
        decode rows =
          .ok (.ok (.header FORMAT 7 :: events (fun _ => 0) (fun _ => 0) 0 ops)) := by
  intro h
  obtain ⟨rows, hread, hdecode⟩ :=
    h [.call 0 "a" "b" [] .void none, .call 0 "c" "d" [] .void none] (by decide +kernel)
  have hfirst : (read (record (fun _ => 0) (fun _ => 0) 1000 7
      [.call 0 "a" "b" [] .void none, .call 0 "c" "d" [] .void none]).bytes >>=
        fun p => decode p.1) = .ok (.ok [.header FORMAT 7, .call "a" "b" (.args []) .void none,
          .call "a" "b" (.args []) .void none]) := by decide +kernel
  rw [hread] at hfirst
  exact absurd (hdecode.symm.trans hfirst) (by decide)

end Runs

end HdLang.Journal
