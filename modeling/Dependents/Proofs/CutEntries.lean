import Dependents.Proofs.CacheLayers

/-! Entry files that are cut short. What is read off some bytes is read off longer bytes too, so no
proper beginning of an entry's bytes can be taken for an entry. -/
namespace Dependents

namespace Codec

variable {α β : Type} {decode : Decoder α} {bytes cut : List UInt8} {a : α}

/-- What a decoder reads off some bytes, it reads off longer ones, and hands on what was added. -/
def Extends (decode : Decoder α) : Prop :=
  ∀ bytes a rest, decode bytes = some (a, rest) →
    ∀ more, decode (bytes ++ more) = some (a, rest ++ more)

/-- Bytes that are read to their end cannot be read when some of them are missing. -/
theorem Reads.eq_none_of_cut (hreads : Reads decode bytes a) (hextends : Extends decode)
    (hcut : cut <+: bytes) (hne : cut ≠ bytes) : decode cut = none := by
  obtain ⟨more, rfl⟩ := hcut
  cases hdecode : decode cut with
  | none => rfl
  | some found =>
    obtain ⟨b, rest⟩ := found
    have hwhole := hreads []
    rw [List.append_nil, hextends cut b rest hdecode more] at hwhole
    have hmore : rest ++ more = [] := (Prod.mk.inj (Option.some.inj hwhole)).2
    exact absurd (by rw [(List.append_eq_nil_iff.1 hmore).2, List.append_nil]) hne

theorem Extends.map (h : Extends decode) (g : α → β) :
    Extends fun bytes => (decode bytes).map fun (a, rest) => (g a, rest) := by
  intro bytes b rest hb more
  obtain ⟨⟨a, rest'⟩, ha, heq⟩ := Option.map_eq_some_iff.1 hb
  cases heq
  simp only [h bytes a rest ha more, Option.map_some]

/-- A decoder that goes on as the first value says. -/
theorem Extends.bind {next : α → Decoder β} (h : Extends decode) (hnext : ∀ a, Extends (next a)) :
    Extends fun bytes => (decode bytes).bind fun (a, rest) => next a rest := by
  intro bytes b rest hb more
  obtain ⟨⟨a, rest'⟩, ha, hrest⟩ := Option.bind_eq_some_iff.1 hb
  simp only [h bytes a rest' ha more, Option.bind_some]
  exact hnext a rest' b rest hrest more

theorem extends_nat (width : Nat) : Extends (decodeNat width) := by
  induction width with
  | zero =>
    intro bytes n rest h more
    cases h
    rfl
  | succ width ih =>
    intro bytes n rest h more
    cases bytes with
    | nil => cases h
    | cons b bytes => exact ih.map (fun n => b.toNat + 256 * n) bytes n rest h more

theorem extends_word : Extends decodeWord :=
  extends_nat 8

theorem extends_text : Extends decodeText := by
  have hpiece : ∀ size, Extends fun rest =>
      if size ≤ rest.length then (Text.decode? (rest.take size)).map (·, rest.drop size) else none := by
    intro size bytes s rest h more
    simp only [Option.ite_none_right_eq_some, Option.map_eq_some_iff] at h
    obtain ⟨hsize, text, htext, heq⟩ := h
    cases heq
    have hlonger : size ≤ (bytes ++ more).length := by
      rw [List.length_append]
      omega
    simp only [if_pos hlonger, List.take_append_of_le_length hsize,
      List.drop_append_of_le_length hsize, htext, Option.map_some]
  exact extends_word.bind hpiece

theorem extends_many (h : Extends decode) (n : Nat) : Extends (decodeMany decode n) := by
  induction n with
  | zero =>
    intro bytes items rest hitems more
    cases hitems
    rfl
  | succ n ih =>
    exact h.bind fun item => ih.map (item :: ·)

theorem extends_list (h : Extends decode) : Extends (decodeList decode) :=
  extends_word.bind fun size => extends_many h size

theorem extends_option (h : Extends decode) : Extends (decodeOption decode) := by
  intro bytes o rest ho more
  cases bytes with
  | nil => cases ho
  | cons mark bytes =>
    rw [decodeOption] at ho
    rw [List.cons_append, decodeOption]
    split at ho
    · rename_i hmark
      cases ho
      rw [if_pos hmark]
    · rename_i hnone
      rw [if_neg hnone]
      split at ho
      · rename_i hmark
        rw [if_pos hmark]
        exact h.map some bytes o rest ho more
      · cases ho

theorem extends_declaration : Extends decodeDeclaration :=
  extends_text.bind fun specifier => (extends_list extends_text).map (ImportDeclaration.mk specifier)

theorem extends_position : Extends decodePosition :=
  extends_word.bind fun line => extends_word.map (Position.mk line)

theorem extends_callSite : Extends decodeCallSite :=
  extends_text.bind fun callee => extends_position.bind fun position =>
    (extends_option extends_text).map (CallSite.mk callee position)

theorem extends_fileSyntax : Extends decodeSyntax :=
  (extends_list extends_declaration).bind fun imports =>
    (extends_list extends_callSite).map (FileSyntax.mk imports)

end Codec

open Codec SyntaxCache

/-- A look-up remembers nothing of a file that cannot be decoded, and finds nothing by it. -/
theorem SyntaxCache.get_of_undecodable {cache : SyntaxCache} {fs : FileSystem} {dir path : Path}
    {content : List UInt8} (hdir : cache.dir = some dir)
    (hread : fs.read (filePath dir path) = .ok content) (hdecode : CacheEntry.decode? content = none)
    (contentHash : UInt64) : (cache.get fs path contentHash).2 = cache ∧
      (path.components ∉ cache.memory → (cache.get fs path contentHash).1 = none) := by
  have hload : cache.load? fs path = none := by
    simp [load?, hdir, hread, Except.toOption, hdecode]
  constructor
  · rcases cache.get_snd fs path contentHash with heq | ⟨entry, _, hentry, _⟩
    · exact heq
    · rw [hload] at hentry
      cases hentry
  · intro hmemory
    have hnone : cache.memory[path.components]? = none := Std.HashMap.getElem?_eq_none hmemory
    rw [get_fst, held, hnone, hload]
    rfl

namespace CacheEntry

theorem extends_entry : Extends decodeEntry :=
  (extends_nat 4).bind fun version => extends_word.bind fun contentHash =>
    extends_fileSyntax.map (CacheEntry.mk version.toUInt32 contentHash.toUInt64)

theorem decode?_of_cut {e : CacheEntry} {cut : List UInt8} (h : e.syntaxOf.Fits)
    (hcut : cut <+: e.encode) (hne : cut ≠ e.encode) : decode? cut = none := by
  rw [decode?_eq, (reads_entry h).eq_none_of_cut extends_entry hcut hne, Option.map_none]

/-- The bytes of an entry delimit themselves. The entry is read back whatever follows them, and
nothing is read if any of them is missing: a look-up passes over a file that was cut short. -/
theorem encode_selfDelimiting {e : CacheEntry} (h : e.syntaxOf.Fits) :
    (∀ rest, decode? (e.encode ++ rest) = some e) ∧
      ∀ cut, cut <+: e.encode → cut ≠ e.encode → decode? cut = none ∧
        ∀ (cache : SyntaxCache) (fs : FileSystem) (dir path : Path) (contentHash : UInt64),
          cache.dir = some dir → fs.read (filePath dir path) = .ok cut →
            (cache.get fs path contentHash).2 = cache ∧
              (path.components ∉ cache.memory → (cache.get fs path contentHash).1 = none) := by
  refine ⟨decode?_encode h, fun cut hcut hne => ?_⟩
  have hdecode := decode?_of_cut h hcut hne
  exact ⟨hdecode, fun cache fs dir path contentHash hdir hread =>
    get_of_undecodable hdir hread hdecode contentHash⟩

/-- An entry with a call by name is read back in front of another byte. Without its last byte it is
passed over. -/
theorem encode_selfDelimiting_dropLast :
    let e : CacheEntry := ⟨1, 7, ⟨[⟨"./é", ["f", "g"]⟩], [⟨"f", ⟨3, 14⟩, some "main"⟩]⟩⟩
    let fs : FileSystem := ⟨[("c", .dir [(fileName ⟨"/a.ts"⟩, .file e.encode.dropLast)])], []⟩
    decode? (e.encode ++ [0xff]) = some e ∧ decode? e.encode.dropLast = none ∧
      ((blank (some ⟨"/c"⟩)).get fs ⟨"/a.ts"⟩ 7).1 = none := by
  intro e fs
  have hfits : e.syntaxOf.Fits := by decide
  have he : fs.enter? ⟨"/c"⟩ = some (["c"], [(fileName ⟨"/a.ts"⟩, .file e.encode.dropLast)]) :=
    FileSystem.enter?_top "c" (by decide) rfl
  have hu : Unlinked fs ⟨"/c"⟩ := by
    intro place entries henter path target
    rw [he] at henter
    cases henter
    rw [FileNode.child?_cons]
    split <;> simp [FileNode.child?_nil]
  have hread : fs.read (filePath ⟨"/c"⟩ ⟨"/a.ts"⟩) = .ok e.encode.dropLast := by
    simp [FileSystem.read, FileSystem.find, locate_of_enter? hu he, FileNode.child?_cons]
  have hne : e.encode.dropLast ≠ e.encode := by
    decide +kernel
  obtain ⟨hwhole, hcut⟩ := encode_selfDelimiting hfits
  obtain ⟨hnone, hget⟩ := hcut e.encode.dropLast (List.dropLast_prefix _) hne
  exact ⟨hwhole [0xff], hnone,
    (hget (blank (some ⟨"/c"⟩)) fs ⟨"/c"⟩ ⟨"/a.ts"⟩ 7 rfl hread).2 Std.HashMap.not_mem_empty⟩

end CacheEntry

end Dependents
