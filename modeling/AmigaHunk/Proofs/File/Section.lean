import AmigaHunk.File.Basic
import Mathlib.Data.List.Infix

/-! Sections of blocks that are cut short, and of blocks with a unit or a segment in between. Each
section is of the segment block with its number. -/
namespace AmigaHunk

section
variable {α : Type} {p : α → Bool} {xs : List α}

theorem takeWhile_prefix_append (p : α → Bool) (xs ys : List α) :
    xs.takeWhile p <+: (xs ++ ys).takeWhile p := by
  rw [List.takeWhile_append]
  split
  · exact (List.takeWhile_prefix p).trans (List.prefix_append xs _)
  · exact List.prefix_refl _

theorem takeWhile_append_of_mem {x : α} (hx : x ∈ xs) (hp : p x = false) (ys : List α) :
    (xs ++ ys).takeWhile p = xs.takeWhile p := by
  rw [List.takeWhile_append, if_neg]
  intro hlength
  have hall := List.all_takeWhile (p := p) (l := xs)
  rw [(List.takeWhile_prefix p).eq_of_length hlength, List.all_eq_true] at hall
  rw [hall x hx] at hp
  cases hp

theorem takeWhile_append_cons {x : α} (hp : p x = false) (xs ys : List α) :
    (xs ++ x :: ys).takeWhile p = xs.takeWhile p := by
  rw [List.takeWhile_append, List.takeWhile_cons_of_neg (by rw [hp]; decide), List.append_nil]
  split
  · exact ((List.takeWhile_prefix p).eq_of_length (by assumption)).symm
  · rfl

end

/-- Whether a block opens a hunk. -/
def Block.isSegment : Block → Bool
  | segment .. => true
  | _ => false

theorem Block.endsSection_of_isSegment {block : Block} (h : block.isSegment = true) :
    block.endsSection = true := by
  cases block with
  | segment => rfl
  | _ => cases h

/-- Each name waits for a segment that comes. -/
def Block.namesUsed : List Block → Bool
  | [] => true
  | name _ :: blocks => blocks.any isSegment && namesUsed blocks
  | _ :: blocks => namesUsed blocks

/-- The segment block with the number `id` among all blocks, counted from zero, with the blocks in
front of it and those behind it. -/
structure Block.Opens (blocks : List Block) (id : Nat) (before : List Block) (segment : Block)
    (behind : List Block) : Prop where
  eq : blocks = before ++ segment :: behind
  isSegment : segment.isSegment = true
  count : before.countP Block.isSegment = id

namespace Block
variable {blocks before before' behind behind' : List Block} {segment segment' : Block} {id : Nat}

theorem exists_opens (h : id < blocks.countP isSegment) :
    ∃ before segment behind, Opens blocks id before segment behind := by
  induction blocks generalizing id with
  | nil => cases h
  | cons block blocks ih =>
    cases hsegment : block.isSegment with
    | false =>
      rw [List.countP_cons_of_neg (by rw [hsegment]; decide)] at h
      obtain ⟨before, segment, behind, rfl, hs, hcount⟩ := ih h
      refine ⟨block :: before, segment, behind, rfl, hs, ?_⟩
      rw [List.countP_cons_of_neg (by rw [hsegment]; decide), hcount]
    | true =>
      rw [List.countP_cons_of_pos hsegment] at h
      cases id with
      | zero => exact ⟨[], block, blocks, rfl, hsegment, rfl⟩
      | succ id =>
        obtain ⟨before, segment, behind, rfl, hs, hcount⟩ := ih (Nat.succ_lt_succ_iff.1 h)
        refine ⟨block :: before, segment, behind, rfl, hs, ?_⟩
        rw [List.countP_cons_of_pos hsegment, hcount]

theorem Opens.eq_nil_of_append {extra : List Block} (h : Opens blocks id before segment behind)
    (h' : Opens blocks id (before ++ extra) segment' behind') : extra = [] := by
  cases extra with
  | nil => rfl
  | cons first extra =>
    have heq := h.eq.symm.trans h'.eq
    rw [List.append_assoc] at heq
    obtain ⟨rfl, -⟩ := List.cons.inj (List.append_cancel_left heq)
    have hcount := h'.count
    rw [List.countP_append, h.count, List.countP_cons_of_pos h.isSegment] at hcount
    omega

theorem Opens.unique (h : Opens blocks id before segment behind)
    (h' : Opens blocks id before' segment' behind') :
    before' = before ∧ segment' = segment ∧ behind' = behind := by
  have hbefore : before' = before := by
    obtain ⟨extra, rfl⟩ | ⟨extra, rfl⟩ :=
      List.prefix_or_prefix_of_prefix ⟨_, h.eq.symm⟩ ⟨_, h'.eq.symm⟩
    · rw [h.eq_nil_of_append h', List.append_nil]
    · rw [h'.eq_nil_of_append h, List.append_nil]
  subst hbefore
  obtain ⟨hsegment, hbehind⟩ := List.cons.inj (List.append_cancel_left (h'.eq.symm.trans h.eq))
  exact ⟨rfl, hsegment, hbehind⟩

end Block

namespace Section

/-- The second section is the first one, perhaps with more symbols and tables behind its own. -/
structure Continues (s s' : Section) : Prop where
  name_eq : s'.name = s.name
  kind_eq : s'.kind = s.kind
  memory_eq : s'.memory = s.memory
  size_eq : s'.size = s.size
  payload_eq : s'.payload = s.payload
  symbols_prefix : s.symbols <+: s'.symbols
  tables_prefix : s.tables <+: s'.tables

theorem getD_nonempty? {α : Type} (xs : List α) : (nonempty? xs).getD [] = xs := by
  cases xs <;> rfl

theorem exists_segment_of_ofBlocks {pending : Option String} {blocks : List Block}
    (h : 0 < (ofBlocks pending blocks).length) : ∃ block ∈ blocks, block.isSegment = true := by
  induction blocks generalizing pending with
  | nil => cases h
  | cons x xs ih =>
    cases x with
    | segment => exact ⟨_, List.mem_cons_self, rfl⟩
    | _ =>
      obtain ⟨block, hmem, hsegment⟩ := ih h
      exact ⟨block, List.mem_cons_of_mem _ hmem, hsegment⟩

/-- Blocks that come behind others may continue their last section, and no other. -/
theorem ofBlocks_append (pending : Option String) (xs ys : List Block) {i : Nat} {s : Section}
    (h : (ofBlocks pending xs)[i]? = some s) :
    ∃ s', (ofBlocks pending (xs ++ ys))[i]? = some s' ∧ s.Continues s' ∧
      (i + 1 < (ofBlocks pending xs).length → s' = s) := by
  induction xs generalizing pending i with
  | nil => cases h
  | cons x xs ih =>
    cases x with
    | segment kind memory size payload =>
      cases i with
      | zero =>
        cases h
        have hprefix := takeWhile_prefix_append (!·.endsSection) xs ys
        rw [List.cons_append, ofBlocks]
        refine ⟨_, rfl, ⟨rfl, rfl, rfl, rfl, rfl, hprefix.flatMap _, hprefix.flatMap _⟩, ?_⟩
        intro hlast
        obtain ⟨block, hmem, hsegment⟩ :=
          exists_segment_of_ofBlocks (Nat.succ_lt_succ_iff.1 hlast)
        have hbody : (xs ++ ys).takeWhile (!·.endsSection) = xs.takeWhile (!·.endsSection) :=
          takeWhile_append_of_mem hmem (by rw [Block.endsSection_of_isSegment hsegment]; rfl) ys
        rw [hbody]
      | succ i =>
        obtain ⟨s', hget, hcontinues, hlast⟩ := ih none h
        exact ⟨s', hget, hcontinues, fun hi => hlast (Nat.succ_lt_succ_iff.1 hi)⟩
    | name n => exact ih (some n) h
    | _ => exact ih pending h

/-- Behind a unit block sections start anew, except that a name goes on waiting. -/
theorem ofBlocks_unit {xs : List Block} (h : Block.namesUsed xs = true) (pending : Option String)
    (ys : List Block) : ofBlocks pending (xs ++ .unit :: ys) = ofBlocks pending xs ++
      ofBlocks (if xs.any Block.isSegment then none else pending) ys := by
  induction xs generalizing pending with
  | nil => rfl
  | cons x xs ih =>
    cases x with
    | segment kind memory size payload =>
      have hbody : (xs ++ .unit :: ys).takeWhile (!·.endsSection) =
          xs.takeWhile (!·.endsSection) := takeWhile_append_cons rfl xs ys
      have hmore := ih h none
      rw [ite_self] at hmore
      rw [List.cons_append, ofBlocks, hbody, hmore]
      rfl
    | name n =>
      obtain ⟨hsome, hxs⟩ := Bool.and_eq_true_iff.1 h
      have hmore := ih hxs (some n)
      have hany : (Block.name n :: xs).any Block.isSegment = true := hsome
      rw [if_pos hsome] at hmore
      rw [List.cons_append, ofBlocks, hmore, if_pos hany]
      rfl
    | _ => exact ih h pending

theorem ofBlocks_append_segment (p : Progress) (xs ys : List Block) (kind : HunkKind)
    (memory : MemoryKind) (size : Nat) (payload : List UInt8) :
    ofBlocks p.pending (xs ++ .segment kind memory size payload :: ys) =
      ofBlocks p.pending xs ++
        ⟨(xs.foldl Progress.after p).pending, kind, memory, size, payload,
          (ys.takeWhile (!·.endsSection)).flatMap Block.symbolList,
          (ys.takeWhile (!·.endsSection)).flatMap Block.tableList⟩ :: ofBlocks none ys := by
  induction xs generalizing p with
  | nil => rfl
  | cons x xs ih =>
    have hmore := ih (p.after x)
    cases x with
    | segment kind' memory' size' payload' =>
      have hbody : (xs ++ .segment kind memory size payload :: ys).takeWhile (!·.endsSection) =
          xs.takeWhile (!·.endsSection) := takeWhile_append_cons rfl xs ys
      rw [List.cons_append, ofBlocks, hbody]
      exact congrArg (_ :: ·) hmore
    | _ => exact hmore

/-- Blocks without a segment only leave a name. -/
theorem ofBlocks_append_of_not_segment (p : Progress) {xs : List Block}
    (h : ∀ block ∈ xs, block.isSegment = false) (ys : List Block) :
    ofBlocks p.pending (xs ++ ys) = ofBlocks (xs.foldl Progress.after p).pending ys := by
  induction xs generalizing p with
  | nil => rfl
  | cons x xs ih =>
    have hmore := ih (p.after x) fun block hmem => h block (List.mem_cons_of_mem x hmem)
    cases x with
    | segment => cases h _ List.mem_cons_self
    | _ => exact hmore

theorem length_ofBlocks (pending : Option String) (blocks : List Block) :
    (ofBlocks pending blocks).length = blocks.countP Block.isSegment := by
  induction blocks generalizing pending with
  | nil => rfl
  | cons block blocks ih =>
    cases block with
    | segment kind memory size payload =>
      rw [ofBlocks, List.length_cons, ih, List.countP_cons_of_pos rfl]
    | name name =>
      rw [ofBlocks, ih, List.countP_cons_of_neg Bool.false_ne_true]
    | _ => exact (ih pending).trans (List.countP_cons_of_neg Bool.false_ne_true).symm

/-- The hunk of a segment block takes the name that waits in front of it. -/
theorem getElem?_ofBlocks {blocks before behind : List Block} {segment : Block} {id : Nat}
    (h : Block.Opens blocks id before segment behind) :
    ∃ s, (ofBlocks none blocks)[id]? = some s ∧
      s.name = (before.foldl Progress.after .start).pending := by
  obtain ⟨rfl, hsegment, rfl⟩ := h
  cases segment with
  | segment kind memory size payload =>
    have hsections := ofBlocks_append_segment .start before behind kind memory size payload
    replace hsections : ofBlocks none _ = ofBlocks none before ++ _ := hsections
    rw [hsections, ← length_ofBlocks none before, List.getElem?_append_right (Nat.le_refl _),
      Nat.sub_self, List.getElem?_cons_zero]
    exact ⟨_, rfl, rfl⟩
  | _ => cases hsegment

end Section

/-- An open hunk has a segment, and no block behind that ends it. -/
theorem Progress.exists_segment_of_current {xs : List Block}
    (h : (xs.foldl after .start).current.isSome = true) :
    ∃ before kind memory size payload body,
      xs = before ++ .segment kind memory size payload :: body ∧
        ∀ block ∈ body, block.endsSection = false := by
  induction xs using List.reverseRecOn with
  | nil => cases h
  | append_singleton xs x ih =>
    rw [List.foldl_append] at h
    have extend (hx : x.endsSection = false)
        (hxs : (xs.foldl after .start).current.isSome = true) :
        ∃ before kind memory size payload body,
          xs ++ [x] = before ++ .segment kind memory size payload :: body ∧
            ∀ block ∈ body, block.endsSection = false := by
      obtain ⟨before, kind, memory, size, payload, body, rfl, hbody⟩ := ih hxs
      refine ⟨before, kind, memory, size, payload, body ++ [x], by simp, fun block hmem => ?_⟩
      obtain hmem | hmem := List.mem_append.1 hmem
      · exact hbody block hmem
      · rwa [List.mem_singleton.1 hmem]
    cases x with
    | segment kind memory size payload =>
      exact ⟨xs, kind, memory, size, payload, [], rfl, fun _ hmem => by cases hmem⟩
    | close | unit => cases h
    | _ => exact extend rfl h

end AmigaHunk
