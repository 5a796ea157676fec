import Dependents.FileSystem.Update
import Mathlib.Data.List.Basic

/-! What stands where in a file system, and how putting and removing an entry change it: only at the
entry's own place and below. -/
namespace Dependents

namespace FileNode

variable {node : FileNode} {entries : List (String × FileNode)} {name other : String}
  {edit : List (String × FileNode) → List (String × FileNode)}

/-- A node without what a directory holds. -/
def bare : FileNode → FileNode
  | .dir _ => .dir []
  | node => node

/-- What stands at the end of some names, without what a directory holds. -/
def look (node : FileNode) (names : List String) : Option FileNode :=
  (node.at? names).map bare

theorem at?_append (node : FileNode) (names more : List String) :
    node.at? (names ++ more) = (node.at? names).bind (at? more) := by
  induction names generalizing node with
  | nil => rfl
  | cons name names ih =>
    rw [List.cons_append, at?, at?]
    cases node.child? name with
    | none => rfl
    | some child => exact ih child

theorem at?_concat (node : FileNode) (names : List String) (name : String) :
    node.at? (names ++ [name]) = (node.at? names).bind (·.child? name) := by
  rw [at?_append]
  congr 1
  funext child
  simp [at?]

theorem look_eq_dir {names : List String} :
    node.look names = some (.dir []) ↔ ∃ entries, node.at? names = some (.dir entries) := by
  unfold look
  cases h : node.at? names with
  | none => simp
  | some found => cases found <;> simp [bare]

theorem look_eq_link {names : List String} {target : Path} :
    node.look names = some (.link target) ↔ node.at? names = some (.link target) := by
  unfold look
  cases h : node.at? names with
  | none => simp
  | some found => cases found <;> simp [bare]

theorem look_eq_file {names : List String} {content : List UInt8} :
    node.look names = some (.file content) ↔ node.at? names = some (.file content) := by
  unfold look
  cases h : node.at? names with
  | none => simp
  | some found => cases found <;> simp [bare]

theorem look_eq_none {names : List String} : node.look names = none ↔ node.at? names = none := by
  simp [look]

/-- Nothing, or a file: what no walk passes through. -/
def Loose (found : Option FileNode) : Prop :=
  found = none ∨ ∃ content, found = some (.file content)

theorem loose_look {names : List String} : Loose (node.look names) ↔ Loose (node.at? names) := by
  simp only [Loose, look_eq_none, look_eq_file]

theorem child?_nil (other : String) : (dir []).child? other = none := rfl

theorem child?_cons (name other : String) (node : FileNode) (entries : List (String × FileNode)) :
    (dir ((name, node) :: entries)).child? other =
      if name = other then some node else (dir entries).child? other := by
  by_cases h : name = other
  · simp [child?, h]
  · simp [child?, h]

theorem child?_putEntry (name other : String) (node : FileNode) (entries : List (String × FileNode)) :
    (dir (putEntry name node entries)).child? other =
      if other = name then some node else (dir entries).child? other := by
  induction entries with
  | nil =>
    rw [putEntry, child?_cons]
    exact if_congr eq_comm rfl rfl
  | cons entry entries ih =>
    obtain ⟨first, inner⟩ := entry
    unfold putEntry
    by_cases hf : first = name
    · subst hf
      rw [if_pos rfl, child?_cons, child?_cons]
      by_cases h : first = other
      · simp [h]
      · simp [h, Ne.symm h]
    · rw [if_neg hf, child?_cons, child?_cons, ih]
      by_cases h : first = other
      · subst h
        simp [hf]
      · simp [h]

theorem child?_dropEntry (name other : String) (entries : List (String × FileNode)) :
    (dir (dropEntry name entries)).child? other =
      if other = name then none else (dir entries).child? other := by
  induction entries with
  | nil => simp [dropEntry, child?_nil]
  | cons entry entries ih =>
    obtain ⟨first, inner⟩ := entry
    unfold dropEntry at ih ⊢
    by_cases hf : first = name
    · subst hf
      rw [List.filter_cons_of_neg (by simp), ih, child?_cons]
      by_cases h : other = first
      · simp [h]
      · simp [h, Ne.symm h]
    · rw [List.filter_cons_of_pos (by simpa using hf), child?_cons, child?_cons, ih]
      by_cases h : first = other
      · subst h
        simp [hf]
      · simp [h]

/-- A directory that holds nothing but files. -/
def Plain (entries : List (String × FileNode)) : Prop :=
  ∀ name node, (dir entries).child? name = some node → ∃ content, node = .file content

theorem plain_nil : Plain [] :=
  fun _ _ hchild => by cases hchild

theorem Plain.putEntry (h : Plain entries) (content : List UInt8) :
    Plain (FileNode.putEntry name (.file content) entries) := by
  intro other node hchild
  rw [child?_putEntry] at hchild
  split at hchild
  · cases hchild
    exact ⟨content, rfl⟩
  · exact h other node hchild

/-- Below such a directory there is nothing or a file. -/
theorem loose_below {place : List String} (hdir : node.at? place = some (.dir entries))
    (hplain : Plain entries) (name : String) (more : List String) :
    Loose (node.look (place ++ name :: more)) := by
  rw [loose_look, at?_append, hdir, Option.bind_some, at?]
  cases hchild : (dir entries).child? name with
  | none => exact .inl rfl
  | some child =>
    obtain ⟨content, rfl⟩ := hplain name child hchild
    cases more with
    | nil => exact .inr ⟨content, rfl⟩
    | cons other more => exact .inl rfl

/-- What changing a directory further down makes of one of the entries on the way. -/
def changed (edit : List (String × FileNode) → List (String × FileNode)) (names : List String) :
    FileNode → FileNode
  | .dir inner => .dir (change edit names inner)
  | node => node

theorem child?_change_cons (names : List String) :
    (dir (change edit (name :: names) entries)).child? other =
      if other = name then ((dir entries).child? name).map (changed edit names)
      else (dir entries).child? other := by
  induction entries with
  | nil => simp [change, child?_nil]
  | cons entry entries ih =>
    obtain ⟨first, inner⟩ := entry
    have hstep : change edit (name :: names) ((first, inner) :: entries) =
        (first, if first = name then changed edit names inner else inner) ::
          change edit (name :: names) entries := by
      by_cases hf : first = name
      · cases inner <;> simp [change, changed, hf]
      · simp [change, hf]
    rw [hstep, child?_cons, child?_cons, child?_cons, ih]
    by_cases h : first = other
    · subst h
      by_cases hf : first = name <;> simp [hf]
    · by_cases hn : other = name
      · subst hn
        simp [h]
      · simp [h, hn]

/-- A change below a directory shows at no place that does not go through a changed entry. -/
theorem look_change {P : String → Prop} (hedit : ∀ entries other, ¬ P other →
    (dir (edit entries)).child? other = (dir entries).child? other) (place names : List String)
    (h : ∀ name, P name → ¬ (place ++ [name]) <+: names) (entries : List (String × FileNode)) :
    (dir (change edit place entries)).look names = (dir entries).look names := by
  induction place generalizing names entries with
  | nil =>
    cases names with
    | nil => rfl
    | cons n names =>
      have hn : ¬ P n := fun hn => h n hn (by simp)
      simp only [look, at?, change, hedit entries n hn]
  | cons m place ih =>
    cases names with
    | nil => rfl
    | cons n names =>
      simp only [look, at?, child?_change_cons]
      by_cases hn : n = m
      · subst hn
        have hrest : ∀ name, P name → ¬ (place ++ [name]) <+: names :=
          fun name hname hp => h name hname (by simpa using hp)
        rw [if_pos rfl]
        cases (dir entries).child? n with
        | none => rfl
        | some child =>
          cases child with
          | dir inner => exact ih names hrest inner
          | file content => rfl
          | link target => rfl
      · rw [if_neg hn]

/-- Where the changed directory stands, its entries are the edited ones. -/
theorem at?_change (place : List String) {inner : List (String × FileNode)}
    (h : (dir entries).at? place = some (dir inner)) :
    (dir (change edit place entries)).at? place = some (dir (edit inner)) := by
  induction place generalizing entries with
  | nil => simp_all [at?, change]
  | cons m place ih =>
    rw [at?] at h ⊢
    obtain ⟨child, hc, hchild⟩ := Option.bind_eq_some_iff.1 h
    rw [child?_change_cons, if_pos rfl, hc]
    cases child with
    | dir below => exact ih hchild
    | file content => cases place <;> simp [at?, child?] at hchild
    | link target => cases place <;> simp [at?, child?] at hchild

theorem map_putEntry (h : (dir entries).child? name ≠ none) :
    (putEntry name node entries).map (·.1) = entries.map (·.1) := by
  induction entries with
  | nil => exact absurd rfl h
  | cons entry entries ih =>
    obtain ⟨first, inner⟩ := entry
    rw [putEntry]
    split
    · rename_i hfirst
      rw [List.map_cons, List.map_cons, ← hfirst]
    · rename_i hfirst
      rw [child?_cons, if_neg hfirst] at h
      rw [List.map_cons, List.map_cons, ih h]

theorem map_change_cons (names : List String) :
    (change edit (name :: names) entries).map (·.1) = entries.map (·.1) := by
  rw [change, List.map_map]
  apply List.map_congr_left
  intro entry _
  simp only [Function.comp_apply]
  split
  · rename_i hname
    split <;> exact hname.symm
  · rfl

/-- A file that takes the place of what was there changes the names in no directory. -/
theorem names_change_putEntry (content : List UInt8) (place : List String)
    (hold : (dir entries).at? (place ++ [name]) ≠ none) {names : List String}
    {inner inner' : List (String × FileNode)} (h : (dir entries).at? names = some (dir inner))
    (h' : (dir (change (putEntry name (.file content)) place entries)).at? names = some (dir inner')) :
    inner'.map (·.1) = inner.map (·.1) := by
  induction place generalizing names entries with
  | nil =>
    cases names with
    | nil =>
      cases h
      cases h'
      apply map_putEntry
      simpa [at?] using hold
    | cons n names =>
      rw [at?] at h
      rw [at?, change, child?_putEntry] at h'
      by_cases hn : n = name
      · rw [if_pos hn] at h'
        cases names <;> simp [at?, child?] at h'
      · rw [if_neg hn, h] at h'
        cases h'
        rfl
  | cons m place ih =>
    cases names with
    | nil =>
      cases h
      cases h'
      exact map_change_cons place
    | cons n names =>
      rw [at?] at h
      rw [at?, child?_change_cons] at h'
      by_cases hn : n = m
      · subst hn
        rw [if_pos rfl] at h'
        rw [List.cons_append, at?] at hold
        obtain ⟨child, hchild, h⟩ := Option.bind_eq_some_iff.1 h
        rw [hchild] at hold h'
        cases child with
        | dir below => exact ih hold h h'
        | file content => cases names <;> simp [at?, child?] at h
        | link target => cases names <;> simp [at?, child?] at h
      · rw [if_neg hn, h] at h'
        cases h'
        rfl

end FileNode

namespace FileSystem

variable {fs : FileSystem} {place names : List String} {name : String} {node : FileNode}
  {entries : List (String × FileNode)}

theorem put_concat (fs : FileSystem) (place : List String) (name : String) (node : FileNode) :
    fs.put (place ++ [name]) node =
      { fs with root := FileNode.change (FileNode.putEntry name node) place fs.root } := by
  simp [put]

@[simp] theorem workingDir_put (fs : FileSystem) (names : List String) (node : FileNode) :
    (fs.put names node).workingDir = fs.workingDir := by
  unfold put
  split <;> rfl

theorem look_put (h : ¬ (place ++ [name]) <+: names) :
    (fs.put (place ++ [name]) node).top.look names = fs.top.look names := by
  rw [put_concat]
  apply FileNode.look_change (P := (· = name)) _ place names (by simpa using h)
  intro entries other hother
  rw [FileNode.child?_putEntry, if_neg hother]

theorem at?_put (h : fs.top.at? place = some (.dir entries)) :
    (fs.put (place ++ [name]) node).top.at? place =
      some (.dir (FileNode.putEntry name node entries)) := by
  rw [put_concat]
  exact FileNode.at?_change place h

theorem at?_put_self (h : fs.top.at? place = some (.dir entries)) (more : List String) :
    (fs.put (place ++ [name]) node).top.at? (place ++ [name] ++ more) = node.at? more := by
  rw [FileNode.at?_append, FileNode.at?_concat, at?_put h]
  simp [FileNode.child?_putEntry]

/-- Putting a file where none but a file stood shows at that place only. -/
theorem look_put_file (content : List UInt8) (h : fs.top.at? place = some (.dir entries))
    (hplace : FileNode.Loose (fs.top.look (place ++ [name]))) (hne : names ≠ place ++ [name]) :
    (fs.put (place ++ [name]) (.file content)).top.look names = fs.top.look names := by
  by_cases hbelow : (place ++ [name]) <+: names
  · obtain ⟨more, rfl⟩ := hbelow
    cases more with
    | nil => exact absurd (List.append_nil _) hne
    | cons m more =>
      have hold : fs.top.look (place ++ [name] ++ m :: more) = none := by
        rw [FileNode.look_eq_none, FileNode.at?_append]
        rcases hplace with hnone | ⟨old, hfile⟩
        · rw [FileNode.look_eq_none.1 hnone]
          rfl
        · rw [FileNode.look_eq_file.1 hfile]
          rfl
      rw [hold, FileNode.look, at?_put_self h]
      rfl
  · exact look_put hbelow

theorem write_of_locate {p : Path} {content : List UInt8} {found : Option FileNode}
    (h : fs.locate p = .ok (names, found)) (hfree : ∀ inner, found ≠ some (.dir inner)) :
    fs.write p content = .ok (fs.put names (.file content)) := by
  rw [write, h]
  cases found with
  | none => rfl
  | some node =>
    cases node with
    | dir inner => exact absurd rfl (hfree inner)
    | file old | link target => rfl

/-- What is written goes where the path leads, unless a directory is there. -/
theorem locate_of_write {fs' : FileSystem} {p : Path} {content : List UInt8}
    (h : fs.write p content = .ok fs') : ∃ names found, fs.locate p = .ok (names, found) ∧
      (∀ inner, found ≠ some (.dir inner)) ∧ fs' = fs.put names (.file content) := by
  cases hlocate : fs.locate p with
  | error e =>
    rw [write, hlocate] at h
    simp only at h
    split at h <;> cases h
  | ok there =>
    obtain ⟨names, found⟩ := there
    have hfree : ∀ inner, found ≠ some (.dir inner) := by
      rintro inner rfl
      rw [write, hlocate] at h
      cases h
    rw [write_of_locate hlocate hfree] at h
    injection h with h
    exact ⟨names, found, rfl, hfree, h.symm⟩

end FileSystem

end Dependents
