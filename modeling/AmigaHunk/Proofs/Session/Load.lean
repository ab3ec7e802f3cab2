import AmigaHunk.Proofs.Session.Run

/-! Taking up a binary. Either nothing of a session changes, or nothing of it is left but its
configuration. -/
namespace AmigaHunk.Session

/-- A new session about a binary in memory. -/
def ofBytes (bytes : List UInt8) (config : PathConfig) : Except DecodeError Session :=
  (File.decode bytes).result.map (start · config)

/-- Loading finds no file, or one that cannot be read, or one that does not decode, and leaves the
session as it was; or it ends with a session that answers as a new one about the bytes of the file,
whatever comes after it. -/
theorem load_all_or_nothing (fs : FileSystem) (path : HostText) (s : Session) :
    ∃ answer s', perform fs (load path) s = (answer, s') ∧
      (answer = .ok false ↔ fs.has path = false) ∧
      (∀ cause, answer = .error (.io cause) ↔
        fs.has path = true ∧ fs.read path = .error cause) ∧
      (∀ e, answer = .error (.decode e) ↔ fs.has path = true ∧
        ∃ bytes, fs.read path = .ok bytes ∧ (File.decode bytes).result = .error e) ∧
      (answer = .ok true ↔ fs.has path = true ∧
        ∃ bytes hunks, fs.read path = .ok bytes ∧ (File.decode bytes).result = .ok hunks) ∧
      (answer ≠ .ok true → s' = s ∧ ∀ turns, s'.observed turns = s.observed turns) ∧
      (answer = .ok true → s'.resolver.config = s.resolver.config ∧ s'.resolver.resolved = [] ∧
        s'.texts.files = [] ∧ ∃ bytes fresh, fs.read path = .ok bytes ∧
          (File.decode bytes).result = .ok s'.hunks ∧
          ofBytes bytes s.resolver.config = .ok fresh ∧
          ∀ turns, s'.observed turns = fresh.observed turns) := by
  refine ⟨(perform fs (load path) s).1, (perform fs (load path) s).2, rfl, ?_⟩
  have hloads := loads_load fs path s
  generalize perform fs (load path) s = result at hloads
  cases hloads with
  | missing h => simp [h]
  | unreadable h hread => simp [h, hread, eq_comm]
  | malformed h hread hdecode => simp [h, hread, hdecode, eq_comm]
  | @loaded bytes hunks h hread hdecode =>
    have hfresh : ofBytes bytes s.resolver.config = .ok (start hunks s.resolver.config) := by
      rw [ofBytes, hdecode]
      rfl
    refine ⟨by simp [h], by simp [hread], by simp [hread, hdecode], ?_, fun hne => absurd rfl hne,
      fun _ => ⟨rfl, rfl, rfl, bytes, _, hread, hdecode, hfresh, fun _ => rfl⟩⟩
    exact iff_of_true rfl ⟨h, bytes, hunks, hread, hdecode⟩

end AmigaHunk.Session
