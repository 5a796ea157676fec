import Dependents.Cache.Codec
import Dependents.Proofs.Utf8RoundTrip
import Mathlib.Algebra.Group.Nat.Defs

/-! The binary form of cache entries is read back as it was written, whatever bytes follow it. This
holds of all values whose lengths and positions fit the eight bytes that are set aside for them. -/
namespace Dependents

/-- How many numbers eight bytes can tell apart. -/
def wordCount : Nat := 256 ^ 8

/-- A text whose length can be written down. -/
def FitsText (s : String) : Prop :=
  (Text.utf8 s).length < wordCount

/-- A list whose length can be written down, of such values. -/
def FitsList {α : Type} (fits : α → Prop) (items : List α) : Prop :=
  items.length < wordCount ∧ ∀ a ∈ items, fits a

instance : DecidablePred FitsText :=
  fun s => inferInstanceAs (Decidable ((Text.utf8 s).length < wordCount))

instance {α : Type} (fits : α → Prop) [DecidablePred fits] : DecidablePred (FitsList fits) :=
  fun items => inferInstanceAs (Decidable (items.length < wordCount ∧ ∀ a ∈ items, fits a))

structure ImportDeclaration.Fits (d : ImportDeclaration) : Prop where
  specifier : FitsText d.specifier
  localNames : FitsList FitsText d.localNames

structure CallSite.Fits (site : CallSite) : Prop where
  callee : FitsText site.callee
  line : site.position.line < wordCount
  character : site.position.character < wordCount
  caller : ∀ caller, site.caller = some caller → FitsText caller

instance : DecidablePred ImportDeclaration.Fits := fun d =>
  decidable_of_iff (FitsText d.specifier ∧ FitsList FitsText d.localNames)
    ⟨fun ⟨hs, hn⟩ => ⟨hs, hn⟩, fun ⟨hs, hn⟩ => ⟨hs, hn⟩⟩

instance : DecidablePred CallSite.Fits := fun site =>
  decidable_of_iff (FitsText site.callee ∧ site.position.line < wordCount ∧
      site.position.character < wordCount ∧ ∀ caller ∈ site.caller, FitsText caller)
    ⟨fun ⟨hn, hl, hc, hf⟩ => ⟨hn, hl, hc, hf⟩, fun ⟨hn, hl, hc, hf⟩ => ⟨hn, hl, hc, hf⟩⟩

/-- Syntax whose lengths and positions fit the format of the cache. -/
structure FileSyntax.Fits (s : FileSyntax) : Prop where
  imports : FitsList ImportDeclaration.Fits s.imports
  callSites : FitsList CallSite.Fits s.callSites

instance : DecidablePred FileSyntax.Fits := fun s =>
  decidable_of_iff (FitsList ImportDeclaration.Fits s.imports ∧ FitsList CallSite.Fits s.callSites)
    ⟨fun ⟨hi, hc⟩ => ⟨hi, hc⟩, fun ⟨hi, hc⟩ => ⟨hi, hc⟩⟩

namespace Codec

variable {α : Type} {decode : Decoder α} {encode : α → List UInt8} {a : α} {n width : Nat}

/-- A decoder reads a value off some bytes and leaves what follows them. -/
def Reads (decode : Decoder α) (bytes : List UInt8) (a : α) : Prop :=
  ∀ rest, decode (bytes ++ rest) = some (a, rest)

theorem reads_nat (h : n < 256 ^ width) : Reads (decodeNat width) (encodeNat width n) n := by
  induction width generalizing n with
  | zero =>
    intro rest
    obtain rfl : n = 0 := by simpa using h
    rfl
  | succ width ih =>
    intro rest
    have hdiv : n / 256 < 256 ^ width := by
      rw [Nat.pow_succ] at h
      exact Nat.div_lt_of_lt_mul (by rwa [Nat.mul_comm])
    have hlow := Text.toNat_toUInt8 (n % 256) (Nat.mod_lt n (by decide))
    rw [encodeNat, List.cons_append, decodeNat, ih hdiv rest, Option.map_some]
    simp only [hlow, Nat.mod_add_div]

theorem reads_word (h : n < wordCount) : Reads decodeWord (encodeWord n) n :=
  reads_nat h

theorem reads_text {s : String} (h : FitsText s) : Reads decodeText (encodeText s) s := by
  intro rest
  rw [decodeText, encodeText, List.append_assoc, reads_word h]
  simp [Text.decode?_utf8]

theorem reads_many {items : List α} (h : ∀ a ∈ items, Reads decode (encode a) a) :
    Reads (decodeMany decode items.length) (items.flatMap encode) items := by
  induction items with
  | nil => exact fun rest => rfl
  | cons a items ih =>
    intro rest
    have hitems := ih fun b hb => h b (List.mem_cons_of_mem a hb)
    rw [List.flatMap_cons, List.append_assoc, List.length_cons, decodeMany,
      h a List.mem_cons_self, Option.bind_some]
    simp only [hitems rest, Option.map_some]

theorem reads_list {items : List α} {fits : α → Prop} (h : FitsList fits items)
    (hreads : ∀ a, fits a → Reads decode (encode a) a) :
    Reads (decodeList decode) (encodeList encode items) items := by
  intro rest
  rw [decodeList, encodeList, List.append_assoc, reads_word h.1, Option.bind_some]
  exact reads_many (fun a ha => hreads a (h.2 a ha)) rest

theorem reads_option {o : Option α} (h : ∀ a, o = some a → Reads decode (encode a) a) :
    Reads (decodeOption decode) (encodeOption encode o) o := by
  intro rest
  cases o with
  | none => rfl
  | some a =>
    rw [encodeOption, List.cons_append, decodeOption, if_neg (by decide), if_pos rfl, h a rfl rest,
      Option.map_some]

theorem reads_declaration {d : ImportDeclaration} (h : d.Fits) :
    Reads decodeDeclaration (encodeDeclaration d) d := by
  intro rest
  rw [decodeDeclaration, encodeDeclaration, List.append_assoc, reads_text h.specifier,
    Option.bind_some]
  simp only [reads_list h.localNames (fun s => reads_text) rest, Option.map_some]

theorem reads_callSite {site : CallSite} (h : site.Fits) :
    Reads decodeCallSite (encodeCallSite site) site := by
  intro rest
  have hposition : Reads decodePosition (encodePosition site.position) site.position := by
    intro rest
    rw [decodePosition, encodePosition, List.append_assoc, reads_word h.line, Option.bind_some]
    simp only [reads_word h.character rest, Option.map_some]
  have hcaller := reads_option fun caller hc => reads_text (h.caller caller hc)
  rw [decodeCallSite, encodeCallSite, List.append_assoc, List.append_assoc, reads_text h.callee,
    Option.bind_some]
  simp only [hposition _, Option.bind_some, hcaller rest, Option.map_some]

theorem reads_fileSyntax {s : FileSyntax} (h : s.Fits) : Reads decodeSyntax (encodeSyntax s) s := by
  intro rest
  rw [decodeSyntax, encodeSyntax, List.append_assoc,
    reads_list h.imports (fun d => reads_declaration), Option.bind_some]
  simp only [reads_list h.callSites (fun site => reads_callSite) rest, Option.map_some]

end Codec

namespace CacheEntry

/-- Reads an entry and hands on what follows it. -/
def decodeEntry : Codec.Decoder CacheEntry := fun bytes =>
  (Codec.decodeNat 4 bytes).bind fun (version, rest) =>
    (Codec.decodeWord rest).bind fun (contentHash, rest) =>
      (Codec.decodeSyntax rest).map fun (syntaxOf, rest) =>
        (⟨version.toUInt32, contentHash.toUInt64, syntaxOf⟩, rest)

theorem decode?_eq (bytes : List UInt8) : decode? bytes = (decodeEntry bytes).map (·.1) := by
  simp only [decode?, decodeEntry, Option.map_bind, Option.map_map, Function.comp_def]

theorem reads_entry {e : CacheEntry} (h : e.syntaxOf.Fits) : Codec.Reads decodeEntry e.encode e := by
  intro rest
  have hversion : e.version.toNat < 256 ^ 4 := e.version.toNat_lt
  have hhash : e.contentHash.toNat < wordCount := e.contentHash.toNat_lt
  rw [decodeEntry, encode, List.append_assoc, List.append_assoc, Codec.reads_nat hversion,
    Option.bind_some]
  simp only [Codec.reads_word hhash _, Option.bind_some, Codec.reads_fileSyntax h rest, Option.map_some]
  simp

/-- An entry is read back from its bytes, whatever follows them. -/
theorem decode?_encode {e : CacheEntry} (h : e.syntaxOf.Fits) (rest : List UInt8) :
    decode? (e.encode ++ rest) = some e := by
  rw [decode?_eq, reads_entry h rest, Option.map_some]

end CacheEntry

end Dependents
