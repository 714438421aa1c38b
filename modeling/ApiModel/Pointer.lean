/-
  ApiModel.Pointer

  Places in a document. A pointer is its list of segments, kept as they are; only the written form
  `#/a/b` escapes them, a tilde as `~0` and a slash as `~1`. Main statement: `parse?_render`, a
  written pointer reads back as itself.
-/
import ApiModel.Text.Pieces

namespace ApiModel

/-- A place in a document, as the keys and indices that lead to it. -/
structure Pointer where
  segments : List String
  deriving DecidableEq

namespace Pointer

instance : Inhabited Pointer := ⟨⟨[]⟩⟩

/-- The document itself. -/
def root : Pointer := ⟨[]⟩

/-- The place one segment further. -/
def push (p : Pointer) (segment : String) : Pointer := ⟨p.segments ++ [segment]⟩

/-- The place of an array element. -/
def index (p : Pointer) (i : Nat) : Pointer := p.push (String.ofList (Nat.toDigits 10 i))

/-- The last segment. -/
def last? (p : Pointer) : Option String := p.segments.getLast?

/-- The place without its last segment; the root is its own parent. -/
def parent (p : Pointer) : Pointer := ⟨p.segments.dropLast⟩

/-- Whether this is the document itself. -/
def isRoot (p : Pointer) : Bool := p.segments.isEmpty

/-- Whether `q` lies on the way to `p`. -/
def startsWith (p q : Pointer) : Bool := q.segments.isPrefixOf p.segments

/-- Segment by segment order. -/
def compareSegments : List String → List String → Ordering
  | [], [] => .eq
  | [], _ :: _ => .lt
  | _ :: _, [] => .gt
  | s :: ss, t :: ts => if s < t then .lt else if t < s then .gt else compareSegments ss ts

/-- The order of pointers. -/
def compare (p q : Pointer) : Ordering := compareSegments p.segments q.segments

/-! ## The written form -/

/-- A segment with `~` as `~0` and `/` as `~1`. -/
def escape : List Char → List Char
  | [] => []
  | c :: rest =>
    if c = '~' then '~' :: '0' :: escape rest
    else if c = '/' then '~' :: '1' :: escape rest
    else c :: escape rest

/-- A segment with `~0` as `~` and `~1` as `/`; any other tilde stands for itself. -/
def unescape : List Char → List Char
  | [] => []
  | '~' :: '0' :: rest => '~' :: unescape rest
  | '~' :: '1' :: rest => '/' :: unescape rest
  | c :: rest => c :: unescape rest

/-- The written form over characters. -/
def renderChars (p : Pointer) : List Char :=
  '#' :: p.segments.flatMap fun s => '/' :: escape s.toList

/-- The written form `#/a/b`. -/
def render (p : Pointer) : String := String.ofList p.renderChars

/-- The pointer that a text writes: `#` alone, or `#/` and segments between slashes. -/
def parse? (text : String) : Option Pointer :=
  match text.toList with
  | ['#'] => some root
  -- a slash at the end starts an empty segment
  | '#' :: '/' :: rest => some ⟨(Text.pieces (· == '/') rest).map fun s => String.ofList (unescape s)⟩
  | _ => none

/-! ## Reading what was written -/

theorem unescape_escape (s : List Char) : unescape (escape s) = s := by
  induction s with
  | nil => rfl
  | cons c r ih =>
    by_cases h : c = '~'
    · subst h; simp [escape, unescape, ih]
    · by_cases h' : c = '/'
      · subst h'; simp [escape, unescape, ih]
      · have : escape (c :: r) = c :: escape r := by simp [escape, h, h']
        rw [this, unescape.eq_def]
        split <;> simp_all

theorem slash_not_mem_escape (s : List Char) : '/' ∉ escape s := by
  induction s with
  | nil => simp [escape]
  | cons c r ih =>
    simp only [escape]
    split
    · simp [ih]
    · split
      · simp [ih]
      · next h => simp [ih]; exact fun e => h e.symm

theorem escape_uncut (s : List Char) : ∀ c ∈ escape s, (c == '/') = false := by
  intro c hc
  have : c ≠ '/' := fun e => slash_not_mem_escape s (e ▸ hc)
  simpa using this

/-- Escaped segments joined by slashes fall apart at the slashes. -/
theorem pieces_joined (s : String) (ss : List String) :
    (Text.pieces (· == '/') (escape s.toList ++ ss.flatMap fun t => '/' :: escape t.toList)).map
      (fun x => String.ofList (unescape x)) = s :: ss := by
  induction ss generalizing s with
  | nil =>
    simp [Text.pieces_of_uncut (escape_uncut _), unescape_escape, String.ofList_toList]
  | cons t ts ih =>
    simp only [List.flatMap_cons, List.cons_append]
    rw [Text.pieces_append_cut (escape_uncut _) (by simp)]
    simp only [List.map_cons, unescape_escape, String.ofList_toList]
    rw [ih t]

/-- A written pointer reads back as itself. -/
theorem parse?_render (p : Pointer) : parse? p.render = some p := by
  obtain ⟨ss⟩ := p
  simp only [parse?, render, renderChars, String.toList_ofList]
  cases ss with
  | nil => rfl
  | cons s ss =>
    simp only [List.flatMap_cons, List.cons_append]
    rw [pieces_joined s ss]

end Pointer

end ApiModel
