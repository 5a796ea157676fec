import Dependents.Path.Digest
import Dependents.Proofs.PathSteps
import Dependents.Proofs.Utf8RoundTrip

/-! The digest of a path depends on its components alone: what is digested are the bytes of the
steps, and the silent pieces of the text leave no run. -/
namespace Dependents.Path

variable {p q : Path} {c : Char} {cs piece : List Char} {taken : List UInt8}

theorem toUInt8_ge {n : Nat} (hlow : 0x80 ≤ n) (hhigh : n < 256) : ¬ n.toUInt8.toNat < 0x80 := by
  rw [Text.toNat_toUInt8 n hhigh]
  omega

/-- A byte below `0x80` stands for its own character only. -/
theorem toNat_of_mem_charBytes {b : UInt8} (h : b ∈ Text.charBytes c) (hb : b.toNat < 0x80) :
    b.toNat = c.toNat := by
  have hrange := Text.char_range c
  unfold Text.charBytes at h
  generalize c.toNat = n at h hrange
  simp only at h
  split_ifs at h
  · obtain rfl := List.mem_singleton.1 h
    exact Text.toNat_toUInt8 n (by omega)
  · simp only [List.mem_cons, List.not_mem_nil, or_false] at h
    rcases h with rfl | rfl
    all_goals exact absurd hb (toUInt8_ge (by omega) (by omega))
  · simp only [List.mem_cons, List.not_mem_nil, or_false] at h
    rcases h with rfl | rfl | rfl
    all_goals exact absurd hb (toUInt8_ge (by omega) (by omega))
  · simp only [List.mem_cons, List.not_mem_nil, or_false] at h
    rcases h with rfl | rfl | rfl | rfl
    all_goals exact absurd hb (toUInt8_ge (by omega) (by omega))

theorem eq_slash_of_mem (h : slash ∈ Text.charBytes c) : c = '/' :=
  Char.toNat_inj.1 (toNat_of_mem_charBytes h (by decide)).symm

theorem eq_dot_of_mem (h : dot ∈ Text.charBytes c) : c = '.' :=
  Char.toNat_inj.1 (toNat_of_mem_charBytes h (by decide)).symm

theorem bytesOf_cons (c : Char) (cs : List Char) :
    Text.bytesOf (c :: cs) = Text.charBytes c ++ Text.bytesOf cs := by
  simp [Text.bytesOf]

theorem bytesOf_slash (cs : List Char) : Text.bytesOf ('/' :: cs) = slash :: Text.bytesOf cs := by
  rw [bytesOf_cons]
  rfl

theorem bytesOf_dot (cs : List Char) : Text.bytesOf ('.' :: cs) = dot :: Text.bytesOf cs := by
  rw [bytesOf_cons]
  rfl

theorem bytesOf_eq_nil : Text.bytesOf cs = [] ↔ cs = [] := by
  cases cs with
  | nil => simp [Text.bytesOf]
  | cons c cs =>
    obtain ⟨b, more, hbytes, _⟩ := Text.lead_charBytes c
    simp [bytesOf_cons, hbytes]

theorem skipDot_bytesOf_dot : skipDot (Text.bytesOf ['.']) = [] := by
  decide

theorem skipDot_bytesOf_dot_slash (cs : List Char) :
    skipDot (Text.bytesOf ('.' :: '/' :: cs)) = Text.bytesOf ('/' :: cs) := by
  rw [bytesOf_dot, bytesOf_slash]
  simp [skipDot]

/-- Nothing is skipped at the front of a piece that is no dot. -/
theorem skipDot_bytesOf (hdot : cs ≠ ['.']) (hslash : ∀ rest, cs ≠ '.' :: '/' :: rest) :
    skipDot (Text.bytesOf cs) = Text.bytesOf cs := by
  cases cs with
  | nil => rfl
  | cons c cs =>
    obtain ⟨b, more, hbytes, _⟩ := Text.lead_charBytes c
    by_cases hc : c = '.'
    · subst hc
      cases cs with
      | nil => exact absurd rfl hdot
      | cons d cs =>
        obtain ⟨b', more', hbytes', _⟩ := Text.lead_charBytes d
        have hb' : b' ≠ slash := by
          rintro rfl
          have hd : d = '/' := eq_slash_of_mem (by simp [hbytes'])
          exact hslash cs (by rw [hd])
        rw [bytesOf_dot, bytesOf_cons, hbytes']
        simp [skipDot, hb']
    · have hb : b ≠ dot := by
        rintro rfl
        exact hc (eq_dot_of_mem (by simp [hbytes]))
      rw [bytesOf_cons, hbytes, List.cons_append]
      cases more ++ Text.bytesOf cs with
      | nil => simp [skipDot, hb]
      | cons b' rest => simp [skipDot, hb]

theorem chunks_append {bytes : List UInt8} (h : slash ∉ bytes) (rest : List UInt8) :
    chunks taken (bytes ++ rest) = chunks (taken ++ bytes) rest := by
  induction bytes generalizing taken with
  | nil => simp
  | cons b bytes ih =>
    rw [List.mem_cons, not_or] at h
    rw [List.cons_append, chunks, if_neg (Ne.symm h.1), ih h.2]
    simp

/-- The run that some bytes end in, if there is one. -/
def emit (bytes : List UInt8) : List (List UInt8) :=
  if bytes.isEmpty then [] else [bytes]

theorem chunks_slash (rest : List UInt8) :
    chunks taken (slash :: rest) = emit taken ++ chunks [] (skipDot rest) := by
  rw [chunks, if_pos rfl, emit]
  split <;> simp

/-- The run that a piece after the first one leaves. -/
def innerRun (piece : List Char) : Option (List UInt8) :=
  if piece = [] ∨ piece = ['.'] then none else some (Text.bytesOf piece)

theorem emit_bytesOf (h : piece ≠ ['.']) : emit (Text.bytesOf piece) = (innerRun piece).toList := by
  by_cases hnil : piece = []
  · simp [hnil, emit, innerRun, Text.bytesOf]
  · have hbytes : Text.bytesOf piece ≠ [] := mt bytesOf_eq_nil.1 hnil
    simp [emit, innerRun, h, hnil, hbytes]

theorem eq_dot_of_pieces {rest : List (List Char)} (h : pieces cs = ['.'] :: rest) :
    cs = ['.'] ∨ ∃ more, cs = '.' :: '/' :: more := by
  cases cs with
  | nil => cases h
  | cons c cs =>
    by_cases hc : c = '/'
    · subst hc
      rw [pieces_slash] at h
      cases h
    · obtain ⟨first, more, hf⟩ := exists_pieces cs
      rw [pieces_cons hc hf] at h
      cases h
      cases cs with
      | nil => exact .inl rfl
      | cons d cs =>
        by_cases hd : d = '/'
        · exact .inr ⟨cs, by rw [hd]⟩
        · obtain ⟨first, more, hf'⟩ := exists_pieces cs
          rw [pieces_cons hd hf'] at hf
          cases hf

/-- The runs of a text are the bytes of its pieces, without the silent ones. -/
theorem chunks_bytesOf (taken : List UInt8) (cs : List Char) {rest : List (List Char)}
    (h : pieces cs = piece :: rest) :
    chunks taken (Text.bytesOf cs) = emit (taken ++ Text.bytesOf piece) ++ rest.filterMap innerRun := by
  -- The induction is on the length: a dot that is skipped takes the slash after it along.
  induction hn : cs.length using Nat.strong_induction_on generalizing cs taken piece rest with
  | h n ih =>
    cases cs with
    | nil =>
      cases h
      simp [Text.bytesOf, chunks, emit]
    | cons c cs =>
      by_cases hc : c = '/'
      · subst hc
        rw [pieces_slash] at h
        cases h
        rw [bytesOf_slash, chunks_slash, bytesOf_eq_nil.2 rfl, List.append_nil]
        congr 1
        by_cases hdot : cs = ['.']
        · subst hdot
          rw [skipDot_bytesOf_dot]
          simp [chunks, pieces, innerRun]
        by_cases hslash : ∃ more, cs = '.' :: '/' :: more
        · obtain ⟨more, rfl⟩ := hslash
          have hmore := pieces_slash more
          have hruns := ih _ (by simp [← hn]) [] ('/' :: more) hmore rfl
          rw [skipDot_bytesOf_dot_slash, hruns, pieces_cons (by decide) hmore]
          simp [emit, innerRun, Text.bytesOf]
        · obtain ⟨first, more, hf⟩ := exists_pieces cs
          have hfirst : first ≠ ['.'] := by
            rintro rfl
            exact (eq_dot_of_pieces hf).elim hdot hslash
          rw [skipDot_bytesOf hdot (fun rest hrest => hslash ⟨rest, hrest⟩),
            ih _ (by simp [← hn]) [] cs hf rfl, hf, List.nil_append, emit_bytesOf hfirst,
            List.filterMap_cons]
          cases innerRun first <;> rfl
      · obtain ⟨first, more, hf⟩ := exists_pieces cs
        rw [pieces_cons hc hf] at h
        cases h
        have hbytes : slash ∉ Text.charBytes c := fun hmem => hc (eq_slash_of_mem hmem)
        rw [bytesOf_cons, chunks_append hbytes, ih cs.length (by simp [← hn]) _ cs hf rfl, bytesOf_cons,
          List.append_assoc]

/-- The run that a step leaves. -/
def runOf : Component → Option (List UInt8)
  | .root => none
  | .current => some [dot]
  | .parent => some [dot, dot]
  | .name name => some (Text.utf8 name)

theorem innerComponent_bind_runOf (piece : List Char) :
    (innerComponent piece).bind runOf = innerRun piece := by
  unfold innerComponent innerRun
  split_ifs with hsilent hparent
  · rfl
  · subst hparent
    rfl
  · simp [runOf, Text.utf8]

theorem firstComponent_bind_runOf (piece : List Char) (last : Bool) :
    ((firstComponent piece last).bind runOf).toList = emit (Text.bytesOf piece) := by
  unfold firstComponent
  split_ifs with hnil hlast hdot
  · subst hnil
    rfl
  · subst hnil
    rfl
  · subst hdot
    rfl
  · rw [innerComponent_bind_runOf, emit_bytesOf hdot]

theorem chunks_text (p : Path) : chunks [] (Text.utf8 p.text) = p.components.filterMap runOf := by
  obtain ⟨first, rest, hf⟩ := exists_pieces p.text.toList
  rw [Text.utf8, chunks_bytesOf [] _ hf, List.nil_append, components_eq, hf, spell,
    List.filterMap_filterMap, List.filterMap_cons, List.filterMap_map,
    ← firstComponent_bind_runOf first rest.isEmpty]
  have hinner : (fun piece => (innerComponent piece).bind runOf) = innerRun :=
    funext innerComponent_bind_runOf
  simp only [Function.comp_def, hinner]
  cases (firstComponent first rest.isEmpty).bind runOf <;> rfl

/-- Paths that are the same have the same digest. -/
theorem digest_congr (h : p.components = q.components) : p.digest = q.digest := by
  rw [digest, digest, chunks_text, chunks_text, h]

end Dependents.Path
