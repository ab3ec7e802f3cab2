import AmigaHunk.Proofs.Path.Place
import AmigaHunk.Proofs.Session.RoundTrip
import AmigaHunk.Proofs.Session.Transparent

/-! What questions are answered while no file changes, as functions of the hunks, the configuration
and the files. -/
namespace AmigaHunk

namespace PathConfig
variable (config : PathConfig) (fs : FileSystem)

/-- Whether the source of a table lies at the file `wanted`. -/
def isAt (wanted : String) (t : LineTable) : Bool := Path.same (config.place fs t.name) wanted

/-- The number of each hunk, as often as it has a table for `wanted`. -/
def segmentsAt (wanted : String) (hunks : List Hunk) : List Nat :=
  hunks.zipIdx.flatMap fun p => List.replicate (p.1.tableList.countP (config.isAt fs wanted)) p.2

/-- The offset of a line in the first table for `wanted` that has it. -/
def offsetIn (wanted : String) (line : UInt32) (h : Hunk) : Option UInt32 :=
  h.tableList.findSome? fun t => if config.isAt fs wanted t then t.offsetOf line else none

/-- The offset of a line in the first hunk that has one. -/
def addressAt (wanted : String) (line : UInt32) (hunks : List Hunk) : Option Address :=
  hunks.zipIdx.findSome? fun p => (config.offsetIn fs wanted line p.1).map (⟨p.2, ·⟩)

/-- The tables are found one by one, and each gives the number of its hunk. -/
theorem segmentsAt_eq (wanted : String) (hunks : List Hunk) :
    ((hunks.zipIdx.flatMap fun p => p.1.tableList.map (·, p.2)).filter
      (config.isAt fs wanted ·.1)).map (·.2) = config.segmentsAt fs wanted hunks := by
  rw [List.filter_flatMap, List.map_flatMap, segmentsAt]
  congr 1
  funext p
  rw [List.filter_map, List.map_map, List.countP_eq_length_filter, ← List.map_const']
  rfl

end PathConfig

namespace Session
variable {α β : Type} {fs : FileSystem} {hunks : List Hunk} {config : PathConfig}

/-- In a session about these hunks the action answers `a`, whatever has been found before. -/
structure Tells (fs : FileSystem) (hunks : List Hunk) (config : PathConfig) (act : Action α)
    (a : α) : Prop where
  answer_eq : ∀ {s}, Alike fs (start hunks config) s → (perform fs act s).1 = a
  alike : ∀ {s}, Alike fs (start hunks config) s →
    Alike fs (start hunks config) (perform fs act s).2

namespace Tells

theorem ask {act : Action α} {a : α} (h : Tells fs hunks config act a) {request : Request}
    {f : α → Answer} (hr : request.answer = f <$> act) {s : Session}
    (hs : Alike fs (start hunks config) s) : (s.ask ⟨fs, request⟩).1 = f a := by
  rw [ask_of_map act hr]
  exact congrArg f (h.answer_eq hs)

theorem pure (a : α) : Tells fs hunks config (pure a) a := ⟨fun _ => rfl, id⟩

theorem bind {act : Action α} {f : α → Action β} {a : α} {b : β}
    (hact : Tells fs hunks config act a) (hf : Tells fs hunks config (f a) b) :
    Tells fs hunks config (act >>= f) b where
  answer_eq hs := by
    rw [perform_bind, hact.answer_eq hs]
    exact hf.answer_eq (hact.alike hs)
  alike hs := by
    rw [perform_bind, hact.answer_eq hs]
    exact hf.alike (hact.alike hs)

theorem map {act : Action α} {a : α} (f : α → β) (hact : Tells fs hunks config act a) :
    Tells fs hunks config (f <$> act) (f a) := by
  rw [map_eq_pure_bind]
  exact hact.bind (pure (f a))

theorem get {f : Session → Action α} {a : α}
    (hf : ∀ s, s.hunks = hunks → Tells fs hunks config (f s) a) :
    Tells fs hunks config (get >>= f) a where
  answer_eq hs := by
    rw [perform_bind, perform_get]
    exact (hf _ hs.hunks_eq.symm).answer_eq hs
  alike hs := by
    rw [perform_bind, perform_get]
    exact (hf _ hs.hunks_eq.symm).alike hs

theorem resolveName (name : String) :
    Tells fs hunks config (resolveName name) (config.place fs name) where
  answer_eq hs := by
    rw [hs.right.perform_resolveName, ← hs.config_eq]
    rfl
  alike {s} hs := by
    have hask : Alike fs (start hunks config) (s.ask ⟨fs, .resolveName name⟩).2 := hs.ask rfl
    rwa [ask_of_map (t := ⟨fs, .resolveName name⟩) (Session.resolveName name) rfl] at hask

theorem isFor (wanted : String) (t : LineTable) :
    Tells fs hunks config (isFor wanted t) (config.isAt fs wanted t) :=
  (resolveName t.name).bind (pure _)

theorem anyM {p : β → Action Bool} {q : β → Bool} (h : ∀ x, Tells fs hunks config (p x) (q x))
    (xs : List β) : Tells fs hunks config (xs.anyM p) (xs.any q) := by
  induction xs with
  | nil => exact pure false
  | cons x xs ih =>
    refine (h x).bind ?_
    rw [List.any_cons]
    cases q x with
    | true => exact pure true
    | false => exact ih

theorem findSomeM? {f : β → Action (Option α)} {g : β → Option α}
    (h : ∀ x, Tells fs hunks config (f x) (g x)) (xs : List β) :
    Tells fs hunks config (xs.findSomeM? f) (xs.findSome? g) := by
  induction xs with
  | nil => exact pure none
  | cons x xs ih =>
    refine (h x).bind ?_
    rw [List.findSome?_cons]
    cases g x with
    | some a => exact pure (some a)
    | none => exact ih

theorem filterAuxM {p : β → Action Bool} {q : β → Bool}
    (h : ∀ x, Tells fs hunks config (p x) (q x)) (xs acc : List β) :
    Tells fs hunks config (xs.filterAuxM p acc) ((xs.filter q).reverse ++ acc) := by
  induction xs generalizing acc with
  | nil => exact pure acc
  | cons x xs ih =>
    refine (h x).bind ?_
    have hmore := ih (cond (q x) (x :: acc) acc)
    cases hq : q x with
    | true => simpa [hq] using hmore
    | false => simpa [hq] using hmore

theorem filterM {p : β → Action Bool} {q : β → Bool} (h : ∀ x, Tells fs hunks config (p x) (q x))
    (xs : List β) : Tells fs hunks config (xs.filterM p) (xs.filter q) := by
  have hdone := (filterAuxM h xs []).bind (f := fun found => Pure.pure found.reverse) (pure _)
  rwa [List.append_nil, List.reverse_reverse] at hdone

end Tells

/-- The symbols of a hunk, with its number. -/
def symbolsIn (h : Hunk) : List SegmentSymbol := h.symbolList.map (⟨·, h.id⟩)

theorem symbolsIn_of_isSome {h : Hunk} (hnone : h.symbols.isSome = false) : symbolsIn h = [] := by
  rw [symbolsIn, Hunk.symbolList, Option.isNone_iff_eq_none.1 (Option.isSome_eq_false_iff.1 hnone)]
  rfl

/-- Hunks without a symbol list make no difference. -/
theorem flatMap_symbolsIn_filter (p : Hunk → Bool) (hs : List Hunk) :
    (hs.filter fun h => h.symbols.isSome && p h).flatMap symbolsIn =
      (hs.filter p).flatMap symbolsIn := by
  induction hs with
  | nil => rfl
  | cons h hs ih =>
    cases hsome : h.symbols.isSome with
    | true => cases hp : p h <;> simp [hsome, hp, ih]
    | false => cases hp : p h <;> simp [hsome, hp, ih, symbolsIn_of_isSome hsome]

theorem tells_isListed (wanted : Option String) (h : Hunk) :
    Tells fs hunks config (isListed wanted h)
      (h.symbols.isSome && wanted.all fun file => h.tableList.any (config.isAt fs file)) := by
  unfold isListed
  cases h.symbols with
  | none => exact .pure false
  | some symbols =>
    cases wanted with
    | none => exact .pure true
    | some file => exact .anyM (Tells.isFor file) h.tableList

theorem tells_symbols (file : Option String) : Tells fs hunks config (symbols file)
    ((hunks.filter fun h => (file.map (config.place fs)).all fun place =>
      h.tableList.any (config.isAt fs place)).flatMap symbolsIn) := by
  have hwanted : Tells fs hunks config (file.mapM resolveName) (file.map (config.place fs)) := by
    cases file with
    | none => exact .pure none
    | some name => exact (Tells.resolveName name).map some
  refine hwanted.bind (.get fun s hs => ?_)
  have hlisted : Tells fs hunks config (hunks.filterM (isListed (file.map (config.place fs)))) _ :=
    .filterM (tells_isListed _) hunks
  rw [hs, ← flatMap_symbolsIn_filter]
  exact hlisted.bind (.pure _)

theorem tells_offsetOf (wanted : String) (line : UInt32) (h : Hunk) :
    Tells fs hunks config (offsetOf wanted line h) (config.offsetIn fs wanted line h) := by
  refine .findSomeM? (f := offsetFor wanted line) (fun t => (Tells.isFor wanted t).bind ?_)
    h.tableList
  cases config.isAt fs wanted t with
  | true => exact .pure _
  | false => exact .pure none

theorem tells_address (file : String) (line : UInt32) : Tells fs hunks config (address file line)
    (config.addressAt fs (Path.normalize file) line hunks) := by
  refine .get fun s hs => ?_
  rw [hs]
  exact .findSomeM? (f := addressIn (Path.normalize file) line)
    (fun p => (tells_offsetOf _ line p.1).bind (.pure _)) hunks.zipIdx

theorem tells_segments (file : String) : Tells fs hunks config (segments file)
    (config.segmentsAt fs (Path.normalize file) hunks) := by
  refine .get fun s hs => ?_
  rw [hs, ← PathConfig.segmentsAt_eq]
  exact (Tells.filterM (fun p : LineTable × Nat => Tells.isFor _ p.1) _).bind (.pure _)

/-- Questions that come while no file changes lead to such sessions. -/
theorem alike_after {s s' : Session} (h : Alike fs s s') {requests : List Request}
    (hq : ∀ request ∈ requests, request.isQuestion = true) :
    Alike fs s (s'.after (requests.map (Turn.mk fs))) := by
  induction requests generalizing s' with
  | nil => exact h
  | cons request requests ih =>
    exact ih (h.ask (hq request List.mem_cons_self)) fun r hr =>
      hq r (List.mem_cons_of_mem request hr)

theorem alike_start_after (hunks : List Hunk) (config : PathConfig) (fs : FileSystem)
    {requests : List Request} (hq : ∀ request ∈ requests, request.isQuestion = true) :
    Alike fs (start hunks config) ((start hunks config).after (requests.map (Turn.mk fs))) :=
  alike_after ⟨rfl, rfl, sound_start fs hunks config, sound_start fs hunks config⟩ hq

end Session
end AmigaHunk
