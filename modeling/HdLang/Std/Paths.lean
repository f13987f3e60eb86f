import HdLang.Lib.Text

/-!
# Paths

A path is text that is read by components: its pieces between slashes, without the empty ones and
without `.`, except a `.` that comes first in a path that does not start with `/`.

So the first piece of a text is a component unless it is empty, and of the others the plain ones are
(`components_eq`). Hence text behind a slash adds its plain pieces (`components_append`), and the
operations, which cut and join texts at slashes, act on components.
-/

namespace HdLang.Paths

open Text List Option

/-! ### Operations -/

/-- `text.slice(start, stop)`; `none` is the panic of an offset that is out of range or inside a
character. -/
def slice (text : List Char) (start stop : ℕ) : Option (List Char) := do
  let (front, _) ← cut text stop
  let (_, middle) ← cut front start
  some middle

/-- `text.starts_with(front)`. -/
def startsWith (front text : List Char) : Bool := front.isPrefixOf text

/-- `text.ends_with(back)`. -/
def endsWith (back text : List Char) : Bool := back.isSuffixOf text

/-- The components of a path's text. -/
def components (text : List Char) : List (List Char) :=
  (text.splitOn '/').foldl
    (fun found piece =>
      if piece = [] ∨ (piece = ['.'] ∧ (0 < found.length ∨ startsWith ['/'] text)) then found
      else found ++ [piece]) []

/-- A path: its text as written. -/
structure Path where
  text : List Char
  deriving DecidableEq

namespace Path

/-- The path with `part` joined on by `/`; an absolute `part` replaces the whole path. -/
def join (p : Path) (part : List Char) : Path :=
  if startsWith ['/'] part || p.text = [] || endsWith ['/'] p.text then
    ⟨if startsWith ['/'] part then part else p.text ++ part⟩
  else ⟨p.text ++ ['/'] ++ part⟩

/-- The path without its last component. -/
def parent (p : Path) : Option Path :=
  let parts := components p.text
  if parts.length = 0 then none
  else
    let init := ['/'].intercalate (parts.take (parts.length - 1))
    some ⟨if startsWith ['/'] p.text then '/' :: init else init⟩

/-- The path's last component, unless it is `.` or `..`. -/
def fileName (p : Path) : Option (List Char) :=
  match (components p.text).getLast? with
  | some name => if name = ['.'] ∨ name = ['.', '.'] then none else some name
  | none => none

/-- The text after the last dot of the file name. -/
def extension (p : Path) : Option (List Char) :=
  match p.fileName with
  | some name =>
    let pieces := name.splitOn '.'
    if pieces.length < 2 ∨ (pieces.length = 2 ∧ pieces.head? = some []) then none
    else pieces.getLast?
  | none => none

/-- The file name without its extension; the outer `none` is a panic. -/
def fileStem (p : Path) : Option (Option (List Char)) :=
  match p.fileName with
  | some name =>
    match p.extension with
    | some ext => (slice name 0 (byteLen name - byteLen ext - 1)).map some
    | none => some (some name)
  | none => some none

end Path

/-! ### Cutting texts -/

variable {part : List Char}

section Cuts

variable {text front back : List Char} {n : ℕ}

/-- A slice from the start is a front of the text. -/
theorem of_slice (h : slice text 0 n = some part) :
    byteLen part = n ∧ ∃ rest, text = part ++ rest := by
  obtain ⟨⟨front, rest⟩, hcut, hpart⟩ := bind_eq_some_iff.mp h
  have hzero : cut front 0 = some ([], front) := by rw [cut]
  have hpart : (cut front 0).bind (fun c => some c.2) = some part := hpart
  rw [hzero] at hpart
  cases hpart
  obtain ⟨rfl, hlen⟩ := of_cut hcut
  exact ⟨hlen, rest, rfl⟩

/-- A front of the text is the slice of its length. -/
theorem slice_append (front back : List Char) :
    slice (front ++ back) 0 (byteLen front) = some front := by
  have hzero : cut front 0 = some ([], front) := by rw [cut]
  rw [slice, cut_append]
  show (cut front 0).bind (fun c => some c.2) = some front
  rw [hzero]
  rfl

theorem endsWith_iff : endsWith back text = true ↔ ∃ front, text = front ++ back := by
  rw [endsWith, isSuffixOf_iff_suffix]
  exact ⟨fun ⟨front, h⟩ => ⟨front, h.symm⟩, fun ⟨front, h⟩ => ⟨front, h.symm⟩⟩

theorem length_lt_of_byteLen {rest : List Char} (h : byteLen part < byteLen (part ++ rest)) :
    part.length < (part ++ rest).length := by
  have hrest : rest ≠ [] := by
    rintro rfl
    simp at h
  have := length_pos_of_ne_nil hrest
  rw [length_append]
  omega

end Cuts

/-- Text without the slashes and the `.` pieces behind its file name. -/
def dropTrailing (text : List Char) : Option (List Char) :=
  if h : endsWith ['/'] text = true ∨ endsWith ['/', '.'] text = true then
    match hslice : slice text 0 (byteLen text - if endsWith ['/'] text then 1 else 2) with
    | some text' =>
      have : text'.length < text.length := by
        obtain ⟨hlen, rest, rfl⟩ := of_slice hslice
        refine length_lt_of_byteLen ?_
        have hpos : 0 < byteLen (text' ++ rest) := by
          obtain h | h := h
          · obtain ⟨front, hfront⟩ := endsWith_iff.mp h
            rw [hfront, byteLen_append, byteLen_cons]
            have := Char.utf8Size_pos '/'
            omega
          · obtain ⟨front, hfront⟩ := endsWith_iff.mp h
            rw [hfront, byteLen_append, byteLen_cons]
            have := Char.utf8Size_pos '/'
            omega
        split at hlen <;> omega
      dropTrailing text'
    | none => none
  else some text
termination_by text.length

/-- The path with the extension of its file name replaced; `none` is a panic. -/
def Path.withExtension (p : Path) (extension : List Char) : Option Path := do
  let stem ← p.fileStem
  match p.fileName, stem with
  | some name, some stem => do
    let text ← dropTrailing p.text
    let kept ← slice text 0 (byteLen text - (byteLen name - byteLen stem))
    some ⟨if extension = [] then kept else kept ++ ['.'] ++ extension⟩
  | _, _ => some p

/-! ### Components -/

variable {parts : List (List Char)}

section Components

variable {text a b : List Char}

/-- A piece that is a component wherever it stands behind a slash. -/
def Plain (piece : List Char) : Bool := piece ≠ [] ∧ piece ≠ ['.']

/-- The first piece, unless it is empty. -/
def lead (piece : List Char) : List (List Char) := if piece = [] then [] else [piece]

theorem startsWith_iff : startsWith ['/'] text = true ↔ ∃ rest, text = '/' :: rest := by
  rw [startsWith, isPrefixOf_iff_prefix]
  exact ⟨fun ⟨rest, h⟩ => ⟨rest, h.symm⟩, fun ⟨rest, h⟩ => ⟨rest, h.symm⟩⟩

/-- A text's first piece, and the pieces behind the first slash. -/
theorem pieces_cases (text : List Char) :
    ('/' ∉ text ∧ text.splitOn '/' = [text]) ∨
      ∃ piece rest, text = piece ++ '/' :: rest ∧ '/' ∉ piece ∧
        text.splitOn '/' = piece :: rest.splitOn '/' := by
  by_cases h : '/' ∈ text
  · obtain ⟨piece, rest, rfl, hpiece⟩ := eq_append_cons_of_mem h
    refine .inr ⟨piece, rest, rfl, hpiece, ?_⟩
    rw [splitOn_append_cons_self, splitOn_eq_singleton hpiece]
    rfl
  · exact .inl ⟨h, splitOn_eq_singleton h⟩

/-- **The components of a text**: its first piece unless it is empty, then the plain pieces. -/
theorem components_eq {piece : List Char} {pieces : List (List Char)}
    (h : text.splitOn '/' = piece :: pieces) :
    components text = lead piece ++ pieces.filter Plain := by
  have hfold : ∀ (pieces found : List (List Char)),
      (0 < found.length ∨ startsWith ['/'] text = true) →
      pieces.foldl (fun found piece =>
        if piece = [] ∨ (piece = ['.'] ∧ (0 < found.length ∨ startsWith ['/'] text)) then found
        else found ++ [piece]) found = found ++ pieces.filter Plain := by
    intro pieces
    induction pieces with
    | nil => simp
    | cons q pieces ih =>
      intro found hfound
      rw [foldl_cons]
      by_cases hq : q = [] ∨ q = ['.']
      · have hplain : ¬Plain q = true := by
          simp only [Plain, decide_eq_true_eq]
          tauto
        rw [if_pos (hq.imp_right fun hdot => ⟨hdot, hfound⟩), ih found hfound,
          filter_cons_of_neg hplain]
      · have hplain : Plain q = true := by
          simp only [Plain, decide_eq_true_eq]
          tauto
        rw [if_neg fun h => hq (h.imp_right And.left), ih _ (.inl (by simp)),
          filter_cons_of_pos hplain, append_assoc, singleton_append]
  rw [components, h, foldl_cons]
  by_cases hnil : piece = []
  · rw [if_pos (.inl hnil), lead, if_pos hnil]
    obtain ⟨-, hsplit⟩ | ⟨first, rest, hrest, -, hsplit⟩ := pieces_cases text
    · rw [hsplit] at h
      cases h
      rfl
    · rw [hsplit] at h
      cases h
      rw [hnil] at hrest
      exact hfold _ [] (.inr (startsWith_iff.mpr ⟨rest, hrest⟩))
  · have hstart : startsWith ['/'] text = false := by
      by_contra hslash
      obtain ⟨rest, rfl⟩ := startsWith_iff.mp (by simpa using hslash)
      have hsplit : ('/' :: rest).splitOn '/' = [] :: rest.splitOn '/' := by
        have := splitOn_append_cons_self (a := '/') [] rest
        simpa using this
      rw [hsplit] at h
      exact hnil (cons.inj h).1.symm
    have hkeep : ¬(piece = [] ∨ piece = ['.'] ∧ (0 < ([] : List (List Char)).length ∨
        startsWith ['/'] text = true)) := by
      rw [hstart]
      simpa using hnil
    rw [if_neg hkeep, hfold pieces _ (.inl (by simp)), lead, if_neg hnil, nil_append]

/-- **Text behind a slash** adds its plain pieces. -/
theorem components_append (a b : List Char) :
    components (a ++ '/' :: b) = components a ++ (b.splitOn '/').filter Plain := by
  obtain ⟨piece, pieces, hpieces⟩ := exists_cons_of_ne_nil (splitOn_ne_nil '/' a)
  have happend : (a ++ '/' :: b).splitOn '/' = piece :: (pieces ++ b.splitOn '/') := by
    rw [splitOn_append_cons_self, hpieces, cons_append]
  rw [components_eq happend, components_eq hpieces, filter_append, append_assoc]

/-- A text without slashes is its one component, if any. -/
theorem components_of_notMem (h : '/' ∉ text) : components text = lead text := by
  rw [components_eq (splitOn_eq_singleton h), filter_nil, append_nil]

/-- A list of components: none has a slash or is empty, and only the first of a path that does not
start with `/` is a `.`. -/
def Canonical (absolute : Bool) : List (List Char) → Prop
  | [] => True
  | first :: rest => '/' ∉ first ∧ first ≠ [] ∧ (absolute = true → first ≠ ['.']) ∧
      ∀ q ∈ rest, '/' ∉ q ∧ Plain q = true

variable {absolute : Bool}

theorem canonical_dropLast (h : Canonical absolute parts) : Canonical absolute parts.dropLast := by
  cases parts with
  | nil => trivial
  | cons first rest =>
    obtain ⟨hslash, hfirst, hdot, hrest⟩ := h
    by_cases hnil : rest = []
    · rw [hnil]
      trivial
    · rw [dropLast_cons_of_ne_nil hnil]
      exact ⟨hslash, hfirst, hdot, fun q hq => hrest q ((dropLast_sublist rest).subset hq)⟩

theorem notMem_of_mem_splitOn {piece : List Char} (h : piece ∈ text.splitOn '/') : '/' ∉ piece := by
  induction hn : text.length using Nat.strongRecOn generalizing text with
  | ind n ih =>
    obtain ⟨hmem, hsplit⟩ | ⟨first, rest, rfl, hfirst, hsplit⟩ := pieces_cases text
    · rw [hsplit] at h
      rw [mem_singleton.mp h]
      exact hmem
    · rw [hsplit] at h
      obtain rfl | h := mem_cons.mp h
      · exact hfirst
      · refine ih rest.length ?_ h rfl
        rw [← hn, length_append, length_cons]
        omega

theorem plain_iff {piece : List Char} : Plain piece = true ↔ piece ≠ [] ∧ piece ≠ ['.'] := by
  rw [Plain, decide_eq_true_eq]

theorem canonical_of_plain (h : ∀ q ∈ parts, '/' ∉ q ∧ Plain q = true)
    : Canonical absolute parts := by
  cases parts with
  | nil => trivial
  | cons first rest =>
    obtain ⟨hslash, hplain⟩ := h first mem_cons_self
    exact ⟨hslash, (plain_iff.mp hplain).1, fun _ => (plain_iff.mp hplain).2,
      fun q hq => h q (mem_cons_of_mem _ hq)⟩

/-- The pieces of an absolute path start with an empty one. -/
theorem splitOn_absolute (h : startsWith ['/'] text = true) :
    ∃ pieces, text.splitOn '/' = [] :: pieces := by
  obtain ⟨rest, rfl⟩ := startsWith_iff.mp h
  have := splitOn_append_cons_self (a := '/') [] rest
  exact ⟨rest.splitOn '/', by simpa using this⟩

theorem canonical_components (text : List Char) :
    Canonical (startsWith ['/'] text) (components text) := by
  obtain ⟨piece, pieces, hpieces⟩ := exists_cons_of_ne_nil (splitOn_ne_nil '/' text)
  have hrest : ∀ q ∈ pieces.filter Plain, '/' ∉ q ∧ Plain q = true := by
    intro q hq
    obtain ⟨hmem, hplain⟩ := mem_filter.mp hq
    have hpiece : q ∈ text.splitOn '/' := by
      rw [hpieces]
      exact mem_cons_of_mem _ hmem
    exact ⟨notMem_of_mem_splitOn hpiece, hplain⟩
  rw [components_eq hpieces]
  by_cases hnil : piece = []
  · rw [lead, if_pos hnil, nil_append]
    exact canonical_of_plain hrest
  · rw [lead, if_neg hnil, singleton_append]
    have hpiece : piece ∈ text.splitOn '/' := by
      rw [hpieces]
      exact mem_cons_self
    refine ⟨notMem_of_mem_splitOn hpiece, hnil, fun habsolute => ?_, hrest⟩
    · obtain ⟨pieces', hempty⟩ := splitOn_absolute habsolute
      rw [hpieces] at hempty
      exact absurd (cons.inj hempty).1 hnil

/-- Components joined by slashes, behind a slash when the path is absolute. -/
def joined (absolute : Bool) (parts : List (List Char)) : List Char :=
  if absolute then '/' :: ['/'].intercalate parts else ['/'].intercalate parts

/-- **Joined components** are the components again. -/
theorem components_joined (h : Canonical absolute parts)
    : components (joined absolute parts) = parts := by
  cases parts with
  | nil => cases absolute <;> decide
  | cons first rest =>
    obtain ⟨hslash, hfirst, hdot, hrest⟩ := h
    have hsplit : (['/'].intercalate (first :: rest)).splitOn '/' = first :: rest := by
      refine splitOn_intercalate _ (fun q hq => ?_) (cons_ne_nil _ _)
      obtain rfl | hq := mem_cons.mp hq
      · exact hslash
      · exact (hrest q hq).1
    have hplain : rest.filter Plain = rest := filter_eq_self.mpr fun q hq => (hrest q hq).2
    cases absolute with
    | false =>
      show components (['/'].intercalate (first :: rest)) = first :: rest
      rw [components_eq hsplit, lead, if_neg hfirst, hplain, singleton_append]
    | true =>
      show components ([] ++ '/' :: ['/'].intercalate (first :: rest)) = first :: rest
      rw [components_append, hsplit, filter_cons_of_pos (plain_iff.mpr ⟨hfirst, hdot rfl⟩), hplain]
      rfl

/-- A part's components without a leading `.`. -/
def behind : List (List Char) → List (List Char)
  | [] => []
  | first :: rest => if first = ['.'] then rest else first :: rest

/-- The plain pieces of a part that is not absolute are its components without a leading `.`. -/
theorem filter_plain (h : startsWith ['/'] part = false) :
    (part.splitOn '/').filter Plain = behind (components part) := by
  obtain ⟨piece, pieces, hpieces⟩ := exists_cons_of_ne_nil (splitOn_ne_nil '/' part)
  rw [components_eq hpieces, hpieces]
  by_cases hnil : piece = []
  · -- An empty first piece of such a part is the whole of it.
    have hwhole : pieces = [] := by
      obtain ⟨-, hsplit⟩ | ⟨first, rest, rfl, -, hsplit⟩ := pieces_cases part
      · rw [hsplit] at hpieces
        exact (cons.inj hpieces).2.symm
      · rw [hsplit] at hpieces
        rw [(cons.inj hpieces).1, hnil] at h
        exact absurd (startsWith_iff.mpr ⟨rest, rfl⟩) (by rw [nil_append] at h; simp [h])
    rw [hnil, hwhole]
    rfl
  · rw [lead, if_neg hnil, singleton_append, behind]
    by_cases hdot : piece = ['.']
    · rw [if_pos hdot, filter_cons_of_neg fun hplain => (plain_iff.mp hplain).2 hdot]
    · rw [if_neg hdot, filter_cons_of_pos (plain_iff.mpr ⟨hnil, hdot⟩)]

end Components

/-! ### The parent and the file name -/

namespace Path

variable {p : Path} {name : List Char}

/-- **A path has a parent** exactly when it has a component, and the parent has the others. -/
theorem parent_spec (p : Path) :
    (p.parent = none ↔ components p.text = []) ∧
      ∀ q, p.parent = some q → components q.text = (components p.text).dropLast := by
  unfold parent
  by_cases hnil : components p.text = []
  · rw [if_pos (by rw [hnil]; rfl)]
    exact ⟨iff_of_true rfl hnil, fun q hq => by cases hq⟩
  · have hlen : (components p.text).length ≠ 0 := fun h => hnil (eq_nil_of_length_eq_zero h)
    rw [if_neg hlen]
    refine ⟨iff_of_false (by simp) hnil, fun q hq => ?_⟩
    cases hq
    rw [← dropLast_eq_take]
    exact components_joined (canonical_dropLast (canonical_components p.text))

/-- **The components of a joined path**, for a part that is not absolute. -/
theorem components_join (hpart : startsWith ['/'] part = false) :
    components (p.join part).text =
      components p.text ++ if p.text = [] then components part else behind (components part) := by
  unfold join
  rw [hpart, Bool.false_or]
  by_cases hempty : p.text = []
  · rw [hempty]
    rfl
  · rw [if_neg hempty, ← filter_plain hpart]
    by_cases hslash : endsWith ['/'] p.text = true
    · obtain ⟨front, hfront⟩ := endsWith_iff.mp hslash
      have hsame : components p.text = components front := by
        rw [hfront, components_append front []]
        exact append_nil _
      rw [if_pos (by simp [hslash])]
      show components (p.text ++ part) = _
      rw [hsame, ← components_append, hfront, append_assoc]
      rfl
    · rw [if_neg (by simpa [hempty] using hslash)]
      show components (p.text ++ ['/'] ++ part) = _
      rw [← components_append, append_assoc]
      rfl

/-- **A file name** is the last component, a plain one that is not `..`. -/
theorem fileName_eq_some : p.fileName = some name ↔
    (∃ parts, components p.text = parts ++ [name]) ∧ name ≠ ['.'] ∧ name ≠ ['.', '.'] := by
  unfold fileName
  obtain hnil | ⟨parts, last, hlast⟩ := eq_nil_or_concat' (components p.text)
  · rw [hnil]
    exact iff_of_false (fun h => by cases h) fun ⟨⟨parts, h⟩, _⟩ => by simp at h
  · rw [hlast, getLast?_concat]
    show (if last = ['.'] ∨ last = ['.', '.'] then none else some last) = some name ↔ _
    have hinj : (∃ parts', parts ++ [last] = parts' ++ [name]) ↔ last = name :=
      ⟨fun ⟨parts', h⟩ => singleton_inj.mp (append_inj' h rfl).2, fun h => ⟨parts, by rw [h]⟩⟩
    rw [hinj]
    by_cases hdots : last = ['.'] ∨ last = ['.', '.']
    · rw [if_pos hdots]
      refine iff_of_false (fun h => by cases h) fun ⟨heq, hone, htwo⟩ => ?_
      exact hdots.elim (fun h => hone (heq ▸ h)) fun h => htwo (heq ▸ h)
    · rw [if_neg hdots, some_inj]
      refine ⟨fun h => ⟨h, h ▸ fun hone => hdots (.inl hone), h ▸ fun htwo => hdots (.inr htwo)⟩,
        And.left⟩

theorem of_mem_components {text q : List Char} (h : q ∈ components text) : '/' ∉ q ∧ q ≠ [] := by
  have hcanonical := canonical_components text
  generalize components text = parts at h hcanonical
  cases parts with
  | nil => cases h
  | cons first rest =>
    obtain ⟨hslash, hfirst, -, hrest⟩ := hcanonical
    obtain rfl | h := mem_cons.mp h
    · exact ⟨hslash, hfirst⟩
    · exact ⟨(hrest q h).1, (plain_iff.mp (hrest q h).2).1⟩

theorem of_fileName (h : p.fileName = some name) :
    '/' ∉ name ∧ name ≠ [] ∧ name ≠ ['.'] ∧ name ≠ ['.', '.'] := by
  obtain ⟨⟨parts, hparts⟩, hone, htwo⟩ := fileName_eq_some.mp h
  have hmem : name ∈ components p.text := by
    rw [hparts]
    exact mem_append_right _ (mem_singleton_self name)
  exact ⟨(of_mem_components hmem).1, (of_mem_components hmem).2, hone, htwo⟩

theorem startsWith_of_notMem {text : List Char} (h : '/' ∉ text) :
    startsWith ['/'] text = false := by
  by_contra hstart
  obtain ⟨rest, rfl⟩ := startsWith_iff.mp (by simpa using hstart)
  exact h mem_cons_self

/-- **The parent joined with the file name** has the components of the path. -/
theorem components_parent_join (h : p.fileName = some name) :
    ∃ q, p.parent = some q ∧ components (q.join name).text = components p.text := by
  obtain ⟨⟨parts, hparts⟩, -, -⟩ := fileName_eq_some.mp h
  obtain ⟨hslash, hnil, hone, -⟩ := of_fileName h
  have hsome : p.parent ≠ none := fun hnone => by
    rw [(parent_spec p).1.mp hnone] at hparts
    simp at hparts
  obtain ⟨q, hq⟩ := ne_none_iff_exists'.mp hsome
  refine ⟨q, hq, ?_⟩
  have hname : components name = [name] := by
    rw [components_of_notMem hslash, lead, if_neg hnil]
  have hbehind : behind (components name) = [name] := by
    rw [hname, behind, if_neg hone]
  rw [components_join (startsWith_of_notMem hslash), hbehind, hname, ite_self,
    (parent_spec p).2 q hq, hparts, dropLast_concat]

/-! ### The extension and the stem -/

theorem dot_cases (name : List Char) :
    ('.' ∉ name ∧ name.splitOn '.' = [name]) ∨
      ∃ stem ext, name = stem ++ '.' :: ext ∧ '.' ∉ ext ∧
        name.splitOn '.' = stem.splitOn '.' ++ [ext] := by
  by_cases h : '.' ∈ name
  · obtain ⟨front, back, hname, hfront⟩ := eq_append_cons_of_mem (mem_reverse.mpr h)
    have hsplit : name = back.reverse ++ '.' :: front.reverse := by
      rw [← reverse_reverse name, hname]
      simp
    have hext : '.' ∉ front.reverse := fun hmem => hfront (mem_reverse.mp hmem)
    refine .inr ⟨back.reverse, front.reverse, hsplit, hext, ?_⟩
    conv_lhs => rw [hsplit, splitOn_append_cons_self, splitOn_eq_singleton hext]
  · exact .inl ⟨h, splitOn_eq_singleton h⟩

/-- The extension of a name with a dot that is not its only one in front. -/
theorem extension_of_dot {stem ext : List Char} (h : p.fileName = some (stem ++ '.' :: ext))
    (hext : '.' ∉ ext) : p.extension = if stem = [] then none else some ext := by
  have hsplit : (stem ++ '.' :: ext).splitOn '.' = stem.splitOn '.' ++ [ext] := by
    rw [splitOn_append_cons_self, splitOn_eq_singleton hext]
  unfold extension
  rw [h]
  show (if ((stem ++ '.' :: ext).splitOn '.').length < 2 ∨ _ ∧ _ then _ else _) = _
  rw [hsplit, getLast?_concat, length_append, length_singleton]
  have hpos : 0 < (stem.splitOn '.').length := length_pos_of_ne_nil (splitOn_ne_nil '.' stem)
  by_cases hstem : stem = []
  · rw [hstem]
    rfl
  · rw [if_neg hstem, if_neg]
    rintro (hshort | ⟨htwo, hhead⟩)
    · omega
    · obtain ⟨-, hone⟩ | ⟨front, back, -, -, hmore⟩ := dot_cases stem
      · rw [hone] at hhead
        exact hstem (some.inj hhead)
      · have hpos' : 0 < (front.splitOn '.').length :=
          length_pos_of_ne_nil (splitOn_ne_nil '.' front)
        rw [hmore, length_append, length_singleton] at htwo
        omega

theorem fileStem_of_extension {stem ext : List Char} (h : p.fileName = some (stem ++ '.' :: ext))
    (hext : p.extension = some ext) : p.fileStem = some (some stem) := by
  have hlen : byteLen (stem ++ '.' :: ext) - byteLen ext - 1 = byteLen stem := by
    have hone : Char.utf8Size '.' = 1 := rfl
    rw [byteLen_append, byteLen_cons, hone]
    omega
  unfold fileStem
  rw [h, hext]
  show (slice (stem ++ '.' :: ext) 0 _).map some = _
  rw [hlen, slice_append]
  rfl

/-- **A file name** is its stem, or its stem, a dot and its extension. -/
theorem fileStem_spec (h : p.fileName = some name) :
    ∃ stem, p.fileStem = some (some stem) ∧ stem ≠ [] ∧
      ((p.extension = none ∧ name = stem) ∨
        ∃ ext, p.extension = some ext ∧ name = stem ++ '.' :: ext ∧ '.' ∉ ext) := by
  obtain ⟨-, hnil, -, -⟩ := of_fileName h
  have hwhole (hnone : p.extension = none) : p.fileStem = some (some name) := by
    unfold fileStem
    rw [h, hnone]
  obtain ⟨-, hsplit⟩ | ⟨stem, ext, rfl, hext, -⟩ := dot_cases name
  · have hnone : p.extension = none := by
      unfold extension
      rw [h]
      show (if (name.splitOn '.').length < 2 ∨ _ ∧ _ then _ else _) = _
      rw [hsplit, if_pos (.inl (by simp))]
    exact ⟨name, hwhole hnone, hnil, .inl ⟨hnone, rfl⟩⟩
  · have hextension := extension_of_dot h hext
    by_cases hstem : stem = []
    · rw [if_pos hstem] at hextension
      exact ⟨_, hwhole hextension, hnil, .inl ⟨hextension, rfl⟩⟩
    · rw [if_neg hstem] at hextension
      exact ⟨stem, fileStem_of_extension h hextension, hstem, .inr ⟨ext, hextension, rfl, hext⟩⟩

end Path

/-! ### Replacing the extension -/

section Trailing

variable {text front back name : List Char}

/-- Slashes and `.` pieces behind a path's last component. -/
def Trailing (rest : List Char) : Prop :=
  ∃ pieces : List (List Char), rest = pieces.flatten ∧ ∀ q ∈ pieces, q = ['/'] ∨ q = ['/', '.']

/-- A front of a path that ends before a component. -/
def Leading (front : List Char) : Prop := front = [] ∨ endsWith ['/'] front = true

/-- Nothing is left to drop. -/
def Trimmed (text : List Char) : Prop :=
  ¬(endsWith ['/'] text = true ∨ endsWith ['/', '.'] text = true)

theorem dropTrailing_trimmed (h : Trimmed text) : dropTrailing text = some text := by
  rw [dropTrailing, dif_neg h]

theorem dropTrailing_append (hback : back = ['/'] ∨ back = ['/', '.']) :
    dropTrailing (front ++ back) = dropTrailing front := by
  have hends : endsWith ['/'] (front ++ back) = true ∨ endsWith ['/', '.'] (front ++ back) = true :=
    hback.imp (fun h => endsWith_iff.mpr ⟨front, by rw [h]⟩)
      fun h => endsWith_iff.mpr ⟨front, by rw [h]⟩
  have hlen : byteLen (front ++ back) - (if endsWith ['/'] (front ++ back) then 1 else 2) =
      byteLen front := by
    have hslash : Char.utf8Size '/' = 1 := rfl
    have hdot : Char.utf8Size '.' = 1 := rfl
    obtain rfl | rfl := hback
    · rw [if_pos (endsWith_iff.mpr ⟨front, rfl⟩), byteLen_append, byteLen_cons, byteLen_nil, hslash]
      omega
    · have hnot : ¬endsWith ['/'] (front ++ ['/', '.']) = true := fun h => by
        obtain ⟨front', hfront⟩ := endsWith_iff.mp h
        have hlast := congrArg getLast? hfront
        simp at hlast
      rw [if_neg hnot, byteLen_append, byteLen_cons, byteLen_cons, byteLen_nil, hslash, hdot]
      omega
  have hcut : slice (front ++ back) 0
      (byteLen (front ++ back) - if endsWith ['/'] (front ++ back) then 1 else 2) = some front := by
    rw [hlen, slice_append]
  rw [dropTrailing, dif_pos hends]
  split
  · next text' hslice =>
    rw [hcut] at hslice
    cases hslice
    rfl
  · next hslice =>
    rw [hcut] at hslice
    cases hslice

/-- **What is dropped** are slashes and `.` pieces, and no more are left. -/
theorem dropTrailing_spec (text : List Char) :
    ∃ kept rest, dropTrailing text = some kept ∧ text = kept ++ rest ∧ Trailing rest ∧
      Trimmed kept := by
  induction hn : text.length using Nat.strongRecOn generalizing text with
  | ind n ih =>
    by_cases h : Trimmed text
    · exact ⟨text, [], dropTrailing_trimmed h, (append_nil text).symm, ⟨[], rfl, by simp⟩, h⟩
    · obtain ⟨front, back, htext, hback⟩ : ∃ front back, text = front ++ back ∧
          (back = ['/'] ∨ back = ['/', '.']) := by
        obtain h | h := not_not.mp h
        · obtain ⟨front, hfront⟩ := endsWith_iff.mp h
          exact ⟨front, _, hfront, .inl rfl⟩
        · obtain ⟨front, hfront⟩ := endsWith_iff.mp h
          exact ⟨front, _, hfront, .inr rfl⟩
      have hlt : front.length < n := by
        rw [← hn, htext, length_append]
        obtain rfl | rfl := hback <;> simp
      obtain ⟨kept, rest, hdrop, hfront, ⟨pieces, hrest, hpieces⟩, hkept⟩ := ih _ hlt front rfl
      refine ⟨kept, rest ++ back, ?_, ?_, ⟨pieces ++ [back], ?_, fun q hq => ?_⟩, hkept⟩
      · rw [htext, dropTrailing_append hback, hdrop]
      · rw [htext, hfront, append_assoc]
      · rw [flatten_append, ← hrest, flatten_singleton]
      · obtain hq | hq := mem_append.mp hq
        · exact hpieces q hq
        · exact mem_singleton.mp hq ▸ hback

/-- Slashes and `.` pieces behind a path add no component. -/
theorem components_trailing {rest : List Char} (h : Trailing rest) :
    components (text ++ rest) = components text := by
  obtain ⟨pieces, rfl, hpieces⟩ := h
  induction pieces generalizing text with
  | nil => rw [flatten_nil, append_nil]
  | cons q pieces ih =>
    rw [flatten_cons, ← append_assoc, ih fun q' hq' =>
      hpieces q' (mem_cons_of_mem _ hq')]
    have hnone (piece : List Char) (hslash : '/' ∉ piece) (hplain : ¬Plain piece = true) :
        components (text ++ '/' :: piece) = components text := by
      rw [components_append, splitOn_eq_singleton hslash, filter_cons_of_neg hplain, filter_nil,
        append_nil]
    obtain rfl | rfl := hpieces q mem_cons_self
    · exact hnone [] (by decide) (by decide)
    · exact hnone ['.'] (by decide) (by decide)

/-- The last component of a trimmed path is its end. -/
theorem eq_append_of_trimmed (h : Trimmed text) (hparts : components text = parts ++ [name]) :
    ∃ front, Leading front ∧ text = front ++ name := by
  by_cases hslash : '/' ∈ text
  · obtain ⟨piece, front, htext, hpiece⟩ := eq_append_cons_of_mem (mem_reverse.mpr hslash)
    have hsplit : text = front.reverse ++ '/' :: piece.reverse := by
      rw [← reverse_reverse text, htext]
      simp
    have hmem : '/' ∉ piece.reverse := fun hin => hpiece (mem_reverse.mp hin)
    have hplain : Plain piece.reverse = true := by
      rw [plain_iff]
      refine ⟨fun hnil => h (.inl ?_), fun hdot => h (.inr ?_)⟩
      · exact endsWith_iff.mpr ⟨front.reverse, by rw [hsplit, hnil]⟩
      · exact endsWith_iff.mpr ⟨front.reverse, by rw [hsplit, hdot]⟩
    rw [hsplit, components_append, splitOn_eq_singleton hmem, filter_cons_of_pos hplain,
      filter_nil] at hparts
    have hname : piece.reverse = name := singleton_inj.mp (append_inj' hparts rfl).2
    refine ⟨front.reverse ++ ['/'], .inr (endsWith_iff.mpr ⟨_, rfl⟩), ?_⟩
    rw [hsplit, hname, append_assoc, singleton_append]
  · rw [components_of_notMem hslash, lead] at hparts
    split at hparts
    · simp at hparts
    · have hparts : [] ++ [text] = parts ++ [name] := hparts
      exact ⟨[], .inl rfl, singleton_inj.mp (append_inj' hparts rfl).2⟩

theorem fileName_append (hfront : Leading front) (hslash : '/' ∉ name) (hnil : name ≠ [])
    (hone : name ≠ ['.']) (htwo : name ≠ ['.', '.']) :
    (Path.mk (front ++ name)).fileName = some name := by
  refine Path.fileName_eq_some.mpr ⟨?_, hone, htwo⟩
  show ∃ parts, components (front ++ name) = parts ++ [name]
  obtain rfl | hfront := hfront
  · refine ⟨[], ?_⟩
    rw [nil_append, components_of_notMem hslash, lead, if_neg hnil, nil_append]
  · obtain ⟨f, rfl⟩ := endsWith_iff.mp hfront
    refine ⟨components f, ?_⟩
    rw [append_assoc, singleton_append, components_append, splitOn_eq_singleton hslash,
      filter_cons_of_pos (plain_iff.mpr ⟨hnil, hone⟩),
      filter_nil]

theorem trimmed_append (hslash : '/' ∉ name) (hnil : name ≠ []) (hone : name ≠ ['.']) :
    Trimmed (front ++ name) := by
  have hback {rest : List Char} (h : endsWith ('/' :: rest) (front ++ name) = true) :
      name <:+ rest := by
    obtain hsuffix | hsuffix := suffix_or_suffix_of_suffix
      (isSuffixOf_iff_suffix.mp h) (suffix_append front name)
    · exact absurd (hsuffix.subset mem_cons_self) hslash
    · obtain heq | hrest := suffix_cons_iff.mp hsuffix
      · exact absurd (heq ▸ mem_cons_self) hslash
      · exact hrest
  rintro (h | h)
  · exact hnil (suffix_nil.mp (hback h))
  · obtain heq | hrest := suffix_cons_iff.mp (hback h)
    · exact hone heq
    · exact hnil (suffix_nil.mp hrest)

end Trailing

section Replacing

variable {p : Path} {front name stem ext tail rest : List Char}

/-- **A path with a file name** is cut around it: slashes and `.` pieces come after it. -/
theorem text_cases (h : p.fileName = some name) :
    ∃ front rest, p.text = front ++ name ++ rest ∧ Leading front ∧ Trailing rest ∧
      dropTrailing p.text = some (front ++ name) := by
  obtain ⟨kept, rest, hdrop, htext, hrest, hkept⟩ := dropTrailing_spec p.text
  obtain ⟨⟨parts, hparts⟩, -, -⟩ := Path.fileName_eq_some.mp h
  rw [htext, components_trailing hrest] at hparts
  obtain ⟨front, hfront, rfl⟩ := eq_append_of_trimmed hkept hparts
  exact ⟨front, rest, htext, hfront, hrest, hdrop⟩

/-- The path up to the stem, with the new extension. -/
theorem withExtension_eq (hname : p.fileName = some (stem ++ tail))
    (hstem : p.fileStem = some (some stem))
    (hdrop : dropTrailing p.text = some (front ++ (stem ++ tail))) (extension : List Char) :
    p.withExtension extension =
      some ⟨if extension = [] then front ++ stem else front ++ stem ++ ['.'] ++ extension⟩ := by
  have hlen : byteLen (front ++ (stem ++ tail)) - (byteLen (stem ++ tail) - byteLen stem) =
      byteLen (front ++ stem) := by
    rw [byteLen_append, byteLen_append, byteLen_append]
    omega
  have hkept : slice (front ++ (stem ++ tail)) 0 (byteLen (front ++ stem)) =
      some (front ++ stem) := by
    rw [← append_assoc, slice_append]
  unfold Path.withExtension
  rw [hstem, hname]
  show (dropTrailing p.text).bind (fun text =>
    (slice text 0 (byteLen text - (byteLen (stem ++ tail) - byteLen stem))).bind _) = _
  rw [hdrop, bind_some, hlen, hkept]
  rfl

theorem of_fileStem (h : p.fileName = some name) :
    ∃ stem tail, p.fileStem = some (some stem) ∧ stem ≠ [] ∧ name = stem ++ tail := by
  obtain ⟨stem, hstem, hne, ⟨-, hname⟩ | ⟨ext, -, hname, -⟩⟩ := Path.fileStem_spec h
  · exact ⟨stem, [], hstem, hne, by rw [hname, append_nil]⟩
  · exact ⟨stem, _, hstem, hne, hname⟩

/-- **A replaced extension**: the path keeps its text up to the end of the stem, and a second
replacement is the last one alone. -/
theorem withExtension_spec (h : p.fileName = some name) (hne : ext ≠ []) (hdot : '.' ∉ ext)
    (hslash : '/' ∉ ext) :
    ∃ stem tail front rest q, p.fileStem = some (some stem) ∧ name = stem ++ tail ∧
      p.text = front ++ name ++ rest ∧ Leading front ∧ Trailing rest ∧
      p.withExtension ext = some q ∧ q.text = front ++ stem ++ '.' :: ext ∧
      q.fileStem = some (some stem) ∧ q.extension = some ext ∧
      ∀ ext', q.withExtension ext' = p.withExtension ext' := by
  obtain ⟨stem, tail, hstem, hstemNe, rfl⟩ := of_fileStem h
  obtain ⟨front, rest, htext, hfront, hrest, hdrop⟩ := text_cases h
  obtain ⟨hnameSlash, -, -, -⟩ := Path.of_fileName h
  have hfresh : '/' ∉ stem ++ '.' :: ext := by
    rw [mem_append, mem_cons]
    rintro (hin | hin | hin)
    · exact hnameSlash (mem_append_left _ hin)
    · exact absurd hin (by decide)
    · exact hslash hin
  have hlong : 3 ≤ (stem ++ '.' :: ext).length := by
    have hstemPos := length_pos_of_ne_nil hstemNe
    have hextPos := length_pos_of_ne_nil hne
    rw [length_append, length_cons]
    omega
  have hnil : stem ++ '.' :: ext ≠ [] := fun heq => by simp [heq] at hlong
  have hone : stem ++ '.' :: ext ≠ ['.'] := fun heq => by simp [heq] at hlong
  have htwo : stem ++ '.' :: ext ≠ ['.', '.'] := fun heq => by simp [heq] at hlong
  have hq : p.withExtension ext = some ⟨front ++ (stem ++ '.' :: ext)⟩ := by
    rw [withExtension_eq h hstem hdrop, if_neg hne]
    simp
  have hqName : (Path.mk (front ++ (stem ++ '.' :: ext))).fileName = some (stem ++ '.' :: ext) :=
    fileName_append hfront hfresh hnil hone htwo
  have hqExt : (Path.mk (front ++ (stem ++ '.' :: ext))).extension = some ext := by
    rw [Path.extension_of_dot hqName hdot, if_neg hstemNe]
  have hqStem := Path.fileStem_of_extension hqName hqExt
  refine ⟨stem, tail, front, rest, _, hstem, rfl, htext, hfront, hrest, hq,
    (append_assoc ..).symm, hqStem, hqExt, fun ext' => ?_⟩
  rw [withExtension_eq hqName hqStem (dropTrailing_trimmed (trimmed_append hfresh hnil hone)) ext',
    withExtension_eq h hstem hdrop ext']

/-- A path without a file name is returned as it is. -/
theorem withExtension_of_none (h : p.fileName = none) (extension : List Char) :
    p.withExtension extension = some p := by
  unfold Path.withExtension Path.fileStem
  rw [h]
  rfl

/-- **No slice is out of range.** -/
theorem withExtension_ne_none (p : Path) (extension : List Char) :
    p.fileStem ≠ none ∧ p.withExtension extension ≠ none := by
  cases h : p.fileName with
  | none =>
    refine ⟨?_, by simp [withExtension_of_none h]⟩
    unfold Path.fileStem
    rw [h]
    simp
  | some name =>
    obtain ⟨stem, tail, hstem, -, rfl⟩ := of_fileStem h
    obtain ⟨front, rest, -, -, -, hdrop⟩ := text_cases h
    exact ⟨by simp [hstem], by simp [withExtension_eq h hstem hdrop]⟩

end Replacing

/-- **Paths agree with their components**: the parent, the file name, joining, and the extension
and the stem of the file name, for every path. -/
theorem path_components (p : Path) :
    (p.parent = none ↔ components p.text = []) ∧
      (∀ q, p.parent = some q → components q.text = (components p.text).dropLast) ∧
      (∀ name, p.fileName = some name →
        ∃ q, p.parent = some q ∧ components (q.join name).text = components p.text) ∧
      (∀ part, startsWith ['/'] part = false → components (p.join part).text =
        components p.text ++
          if p.text = [] then components part else behind (components part)) ∧
      (∀ name, p.fileName = some name → ∃ stem, p.fileStem = some (some stem) ∧
        (p.extension = none ∧ name = stem ∨
          ∃ ext, p.extension = some ext ∧ name = stem ++ '.' :: ext)) ∧
      (∀ name ext, p.fileName = some name → ext ≠ [] → '.' ∉ ext → '/' ∉ ext →
        ∃ stem tail front rest q, p.fileStem = some (some stem) ∧ name = stem ++ tail ∧
          p.text = front ++ name ++ rest ∧ Leading front ∧ Trailing rest ∧
          p.withExtension ext = some q ∧ q.text = front ++ stem ++ '.' :: ext ∧
          q.fileStem = some (some stem) ∧ q.extension = some ext ∧
          ∀ ext', q.withExtension ext' = p.withExtension ext') ∧
      ∀ ext, p.fileStem ≠ none ∧ p.withExtension ext ≠ none := by
  refine ⟨(p.parent_spec).1, (p.parent_spec).2, fun name h => Path.components_parent_join h,
    fun part h => Path.components_join h, fun name h => ?_,
    fun name ext h hne hdot hslash => withExtension_spec h hne hdot hslash,
    withExtension_ne_none p⟩
  obtain ⟨stem, hstem, -, ⟨hnone, hname⟩ | ⟨ext, hext, hname, -⟩⟩ := Path.fileStem_spec h
  · exact ⟨stem, hstem, .inl ⟨hnone, hname⟩⟩
  · exact ⟨stem, hstem, .inr ⟨ext, hext, hname⟩⟩

end HdLang.Paths
