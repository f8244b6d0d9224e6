import PackageMap.ConfigFile
import PackageMap.Proofs.Json.ReadBack

/-!
# Loading configurations

A configuration is loaded from every text that gives it: one that spells an object with each field
at most once, where what is left out has its default (`load_eq_ok`). The order of the members does
not matter, and neither do members of other names, as long as each name is a text.
-/

namespace PackageMap.Config

open Json (Literal)

/-! ## Records -/

section Record

variable {φ α : Type} {names : φ → List String} {members : List (Json.Text × Literal)}

/-- The member gives the field under one of its names. -/
def Gives (names : φ → List String) (m : Json.Text × Literal) (f : φ) : Prop :=
  ∃ key ∈ names f, m.1 = some key

/-- The members give the value of a record: a field at most once, by a literal that stands for it,
and where it is left out it is as in the default. -/
structure Describes (names : φ → List String) (stands : φ → α → Literal → Prop)
    (agree : φ → α → α → Prop) (defaults a : α) (members : List (Json.Text × Literal)) : Prop where
  once : members.Pairwise fun m m' => ∀ f, Gives names m f → ¬ Gives names m' f
  given : ∀ m ∈ members, ∀ f, Gives names m f → stands f a m.2
  omitted : ∀ f, (∀ m ∈ members, ¬ Gives names m f) → agree f defaults a

/-- The name of every member is a text. -/
def Named (members : List (Json.Text × Literal)) : Prop := ∀ m ∈ members, m.1 ≠ none

theorem gives_some_iff {field : String → Option φ}
    (hfield : ∀ key f, field key = some f ↔ key ∈ names f) {key : String} {l : Literal} {f : φ} :
    Gives names (some key, l) f ↔ field key = some f := by
  rw [hfield]
  constructor
  · rintro ⟨key', hkey', ⟨⟩⟩
    exact hkey'
  · exact fun hkey => ⟨key, hkey, rfl⟩

theorem exists_gives_of_cons {m : Json.Text × Literal} {f : φ}
    (h : ∃ e ∈ m :: members, Gives names e f) (hm : ¬ Gives names m f) :
    ∃ e ∈ members, Gives names e f := by
  obtain ⟨e, he, hf⟩ := h
  rcases List.mem_cons.1 he with rfl | he
  · exact (hm hf).elim
  · exact ⟨e, he, hf⟩

/-- Reading the members one by one sets the fields that they give, so the value is read if all other
fields are as in the value already. -/
theorem readMembers_eq_some [DecidableEq φ] {field : String → Option φ}
    {set : φ → Literal → α → Option α} {agree : φ → α → Prop} {a b : α} {seen : List φ}
    (hfield : ∀ key f, field key = some f ↔ key ∈ names f)
    (hext : ∀ b, (∀ f, agree f b) → b = a) (hnamed : Named members)
    (honce : members.Pairwise fun m m' => ∀ f, Gives names m f → ¬ Gives names m' f)
    (hset : ∀ m ∈ members, ∀ f, Gives names m f → ∀ b, ∃ b', set f m.2 b = some b' ∧
      agree f b' ∧ ∀ g, g ≠ f → agree g b → agree g b')
    (hseen : ∀ f ∈ seen, ∀ m ∈ members, ¬ Gives names m f)
    (hb : ∀ f, agree f b ∨ ∃ m ∈ members, Gives names m f) :
    readMembers field set seen b members = some a := by
  -- at every member, a field is as in the value already or is still to be given
  induction members generalizing seen b with
  | nil =>
    have hall (f : φ) : agree f b := (hb f).resolve_right (by simp)
    rw [readMembers, hext b hall]
  | cons m ms ih =>
    obtain ⟨hfirst, hlater⟩ := List.pairwise_cons.1 honce
    have hnamed' : Named ms := fun m hm => hnamed m (.tail _ hm)
    have hset' := fun m hm => hset m (.tail _ hm)
    obtain ⟨key?, l⟩ := m
    obtain ⟨key, rfl⟩ := Option.ne_none_iff_exists'.1 (hnamed _ (.head _))
    unfold readMembers
    cases hf : field key with
    | none =>
      have hother (f : φ) : ¬ Gives names (some key, l) f := by
        rw [gives_some_iff hfield, hf]
        nofun
      exact ih hnamed' hlater hset' (fun f hf m hm => hseen f hf m (.tail _ hm)) fun f =>
        (hb f).imp_right fun h => exists_gives_of_cons h (hother f)
    | some f =>
      have hgives : Gives names (some key, l) f := (gives_some_iff hfield).2 hf
      have hother (g : φ) (hg : g ≠ f) : ¬ Gives names (some key, l) g := by
        rw [gives_some_iff hfield, hf]
        exact fun h => hg (Option.some.inj h).symm
      obtain ⟨b', hb', hagree, hrest⟩ := hset _ (.head _) f hgives b
      have hnew : f ∉ seen := fun hmem => hseen f hmem _ (.head _) hgives
      dsimp only
      rw [if_neg hnew, hb']
      refine ih hnamed' hlater hset' (fun g hg m hm => ?_) fun g => ?_
      · rcases List.mem_cons.1 hg with rfl | hg
        · exact hfirst m hm g hgives
        · exact hseen g hg m (.tail _ hm)
      · by_cases hgf : g = f
        · exact .inl (hgf ▸ hagree)
        · exact (hb g).imp (hrest g hgf) fun h => exists_gives_of_cons h (hother g hgf)

/-- A record is read from the members that give it. -/
theorem Describes.readRecord [DecidableEq φ] {stands : φ → α → Literal → Prop}
    {agree : φ → α → α → Prop} {defaults a : α}
    (h : Describes names stands agree defaults a members) {fields : List φ}
    {field : String → Option φ} {set : φ → Literal → α → Option α}
    (hfield : ∀ key f, field key = some f ↔ key ∈ names f)
    (hext : ∀ b, (∀ f, agree f b a) → b = a) (hnamed : Named members)
    (hset : ∀ m ∈ members, ∀ f, Gives names m f → stands f a m.2 → ∀ b, ∃ b',
      set f m.2 b = some b' ∧ agree f b' a ∧ ∀ g, g ≠ f → agree g b a → agree g b' a) :
    readRecord fields field set defaults (.object members) = some a := by
  refine readMembers_eq_some hfield hext hnamed h.once
    (fun m hm f hf => hset m hm f hf (h.given m hm f hf)) nofun fun f => ?_
  by_cases hgiven : ∃ m ∈ members, Gives names m f
  · exact .inr hgiven
  · exact .inl (h.omitted f fun m hm hf => hgiven ⟨m, hm, hf⟩)

end Record

/-! ## Values -/

def textLiteral (s : String) : Literal := .string (some s)

def textsLiteral (ts : List String) : Literal := .array (ts.map textLiteral)

theorem texts?_textsLiteral (ts : List String) : texts? (textsLiteral ts) = some ts := by
  show (ts.map textLiteral).mapM text? = some ts
  induction ts with
  | nil => rfl
  | cons t ts ih =>
    rw [List.map_cons, List.mapM_cons, ih]
    rfl

theorem word?_ofNat {n : Nat} (h : n < wordLimit) : word? (.number (.ofNat n)) = some n := by
  have hvalue : (Numeral.ofNat n).toNat? = some n := congrArg some Nat.ofDigitChars_ten_toDigits
  unfold word?
  dsimp only
  rw [hvalue, Option.filter_some, if_pos (decide_eq_true h)]

/-! ## Conventions -/

namespace ConventionsField

def names : ConventionsField → List String
  | .extensions => ["extensions"]
  | .mainFields => ["main_fields"]
  | .indexFile => ["index_file"]

/-- The literal stands for the field of the conventions. -/
def Stands (f : ConventionsField) (c : Conventions) (l : Literal) : Prop :=
  match f with
  | .extensions => l = textsLiteral c.extensions
  | .mainFields => l = textsLiteral c.mainFields
  | .indexFile => l = textLiteral c.indexFile

/-- The field is the same in both. -/
def Agree (f : ConventionsField) (c d : Conventions) : Prop :=
  match f with
  | .extensions => c.extensions = d.extensions
  | .mainFields => c.mainFields = d.mainFields
  | .indexFile => c.indexFile = d.indexFile

theorem ofKey?_eq_some_iff (key : String) (f : ConventionsField) :
    ofKey? key = some f ↔ key ∈ f.names := by
  unfold ofKey?
  split <;> cases f <;> simp_all [names]

theorem eq_of_agree {c d : Conventions} (h : ∀ f, Agree f d c) : d = c := by
  obtain ⟨extensions, mainFields, indexFile⟩ := c
  obtain rfl : d.extensions = extensions := h .extensions
  obtain rfl : d.mainFields = mainFields := h .mainFields
  obtain rfl : d.indexFile = indexFile := h .indexFile
  rfl

theorem Stands.set {f : ConventionsField} {c : Conventions} {l : Literal} (h : f.Stands c l)
    (d : Conventions) : ∃ d', f.set l d = some d' ∧ f.Agree d' c ∧
      ∀ g, g ≠ f → g.Agree d c → g.Agree d' c := by
  cases f with
  | extensions =>
    cases h
    refine ⟨{ d with extensions := c.extensions }, ?_, rfl, fun g hne hagree => ?_⟩
    · rw [ConventionsField.set, texts?_textsLiteral, Option.map_some]
    · cases g <;> first | exact hagree | exact (hne rfl).elim
  | mainFields =>
    cases h
    refine ⟨{ d with mainFields := c.mainFields }, ?_, rfl, fun g hne hagree => ?_⟩
    · rw [ConventionsField.set, texts?_textsLiteral, Option.map_some]
    · cases g <;> first | exact hagree | exact (hne rfl).elim
  | indexFile =>
    cases h
    refine ⟨{ d with indexFile := c.indexFile }, rfl, rfl, fun g hne hagree => ?_⟩
    cases g <;> first | exact hagree | exact (hne rfl).elim

end ConventionsField

/-- The members give the conventions. -/
def DescribesConventions (c : Conventions) (members : List (Json.Text × Literal)) : Prop :=
  Describes ConventionsField.names ConventionsField.Stands ConventionsField.Agree {} c members

theorem conventions?_object {c : Conventions} {members : List (Json.Text × Literal)}
    (h : DescribesConventions c members) (hnamed : Named members) :
    conventions? (.object members) = some c :=
  h.readRecord ConventionsField.ofKey?_eq_some_iff (fun _ => ConventionsField.eq_of_agree) hnamed
    fun _ _ _ _ hl => hl.set

/-! ## Configurations -/

namespace Field

/-- The names of a field. The size limit has two. -/
def names : Field → List String
  | .conventions => ["resolver"]
  | .scriptExtensions => ["script_extensions"]
  | .sizeLimit => ["size_limit", "size_limit_bytes"]

/-- The literal stands for the field of the configuration. -/
def Stands (f : Field) (c : Config) (l : Literal) : Prop :=
  match f with
  | .conventions => ∃ members, l = .object members ∧ DescribesConventions c.conventions members
  | .scriptExtensions => l = textsLiteral c.scriptExtensions
  | .sizeLimit => l = .number (.ofNat c.sizeLimit)

/-- The field is the same in both. -/
def Agree (f : Field) (c d : Config) : Prop :=
  match f with
  | .conventions => c.conventions = d.conventions
  | .scriptExtensions => c.scriptExtensions = d.scriptExtensions
  | .sizeLimit => c.sizeLimit = d.sizeLimit

theorem forall_iff {P : Field → Prop} :
    (∀ f, P f) ↔ P .conventions ∧ P .scriptExtensions ∧ P .sizeLimit :=
  ⟨fun h => ⟨h _, h _, h _⟩, fun ⟨h, h', h''⟩ f => by cases f <;> assumption⟩

theorem ofKey?_eq_some_iff (key : String) (f : Field) : ofKey? key = some f ↔ key ∈ f.names := by
  unfold ofKey?
  split <;> cases f <;> simp_all [names]

theorem eq_of_agree {c d : Config} (h : ∀ f, Agree f d c) : d = c := by
  obtain ⟨conventions, scriptExtensions, sizeLimit⟩ := c
  obtain rfl : d.conventions = conventions := h .conventions
  obtain rfl : d.scriptExtensions = scriptExtensions := h .scriptExtensions
  obtain rfl : d.sizeLimit = sizeLimit := h .sizeLimit
  rfl

theorem Stands.set {f : Field} {c : Config} {l : Literal} (h : f.Stands c l)
    (hsize : c.sizeLimit < wordLimit)
    (hnamed : f = .conventions → ∀ members, l = .object members → Named members) (d : Config) :
    ∃ d', f.set l d = some d' ∧ f.Agree d' c ∧ ∀ g, g ≠ f → g.Agree d c → g.Agree d' c := by
  cases f with
  | conventions =>
    obtain ⟨members, rfl, hmembers⟩ := h
    refine ⟨{ d with conventions := c.conventions }, ?_, rfl, fun g hne hagree => ?_⟩
    · rw [Field.set, conventions?_object hmembers (hnamed rfl members rfl), Option.map_some]
    · cases g <;> first | exact hagree | exact (hne rfl).elim
  | scriptExtensions =>
    cases h
    refine ⟨{ d with scriptExtensions := c.scriptExtensions }, ?_, rfl, fun g hne hagree => ?_⟩
    · rw [Field.set, texts?_textsLiteral, Option.map_some]
    · cases g <;> first | exact hagree | exact (hne rfl).elim
  | sizeLimit =>
    cases h
    refine ⟨{ d with sizeLimit := c.sizeLimit }, ?_, rfl, fun g hne hagree => ?_⟩
    · rw [Field.set, word?_ofNat hsize, Option.map_some]
    · cases g <;> first | exact hagree | exact (hne rfl).elim

end Field

/-- The members give the configuration. -/
def DescribesConfig (c : Config) (members : List (Json.Text × Literal)) : Prop :=
  Describes Field.names Field.Stands Field.Agree {} c members

/-- A configuration is loaded from every text that gives it, whatever the order of its fields, the
space around them, and the fields of other names among them. -/
theorem load_eq_ok {t : Tree} {p : Path} {text : String} {c : Config}
    {members : List (Json.Text × Literal)} (hread : t.read p = .ok text.toUTF8)
    (htext : Literal.Spells text (.object members)) (hc : DescribesConfig c members)
    (hsize : c.sizeLimit < wordLimit) (hnamed : Named members)
    (hinner : ∀ inner, (some "resolver", .object inner) ∈ members → Named inner) :
    load t p = .ok c := by
  have hrecord : readRecord Field.all Field.ofKey? Field.set {} (.object members) = some c := by
    refine hc.readRecord Field.ofKey?_eq_some_iff (fun _ => Field.eq_of_agree) hnamed
      fun m hm f hf hstands => hstands.set hsize ?_
    rintro rfl inner hinner'
    obtain ⟨key, hkey, hname⟩ := hf
    obtain rfl := List.mem_singleton.1 hkey
    exact hinner inner (by rwa [← hname, ← hinner'])
  unfold load
  rw [hread]
  dsimp only
  rw [Text.Utf8.strict?_toUTF8]
  dsimp only
  unfold ofText?
  rw [htext.ofText?_eq, Option.bind_some, hrecord]

/-- A project with the given text as its configuration. -/
def project (text : String) : Tree where
  entries := [([⟨fileName, .refl true⟩], .file text.toUTF8)]
  cwd := []

theorem read_project (text : String) : (project text).read ⟨"/reqmap.json"⟩ = .ok text.toUTF8 := rfl

/-- Half of a surrogate pair in quotes. -/
def halfPair : List Char := ['"', '\\', 'u', 'd', '8', '0', '0', '"']

theorem quoted_halfPair : Json.Quoted none halfPair := by
  have hhalf : (Json.Piece.half 0xD800).Spelled ['\\', 'u', 'd', '8', '0', '0'] :=
    .unit (n := 0xD800) (by decide)
  exact .broken (.cons hhalf .nil) nofun

/-- A field of another name that holds half of a pair, the size limit under its second name, and
the conventions under an escaped one. -/
def aliased : List Literal.Member :=
  [⟨some "x", [], Json.quote "x", [], ⟨.array [.string none], [], '[' :: (halfPair ++ [']']), []⟩⟩,
    ⟨some "size_limit_bytes", [' '], Json.quote "size_limit_bytes", [],
      ⟨.number (.ofNat 7), [], ['7'], []⟩⟩,
    ⟨some "resolver", [], '"' :: '\\' :: 'u' :: '0' :: '0' :: '7' :: '2' :: "esolver\"".toList, [],
      ⟨.object [(some "index_file", textLiteral "main")], [],
        Json.compact (.object [("index_file", .string "main")]), []⟩⟩]

def aliasedText : String :=
  "\x7b\"x\":[\"\\ud800\"], \"size_limit_bytes\":7," ++
    "\"\\u0072esolver\":\x7b\"index_file\":\"main\"\x7d\x7d"

theorem spells_aliased :
    Literal.Spells aliasedText (.object (aliased.map Literal.Member.entry)) := by
  have hseven : (Numeral.ofNat 7).Spelled ['7'] := .mk (Numeral.wellFormed_ofNat 7) .none
  have hletter : (Json.Piece.char 'r').Spelled ['\\', 'u', '0', '0', '7', '2'] :=
    .unit (n := 0x72) (by decide)
  have hname : Json.Quoted (some "resolver")
      ('"' :: '\\' :: 'u' :: '0' :: '0' :: '7' :: '2' :: "esolver\"".toList) :=
    .joined (.cons hletter (Json.spelled_escapes "esolver".toList))
      (.char 'r' (Json.joins_chars "esolver".toList))
  have hitem : Literal.Spelled (.array [.string none]) ('[' :: (halfPair ++ [']'])) := by
    refine @Literal.Spelled.items ⟨.string none, [], halfPair, []⟩ [] ?_ ?_
    · simp [Literal.Item.Spaced, Literal.Space]
    · simpa using .string quoted_halfPair
  have hconventions : (Json.object [("index_file", .string "main")]).Readable 1 :=
    .object (by simpa using .string "main")
  refine ⟨[], _, [], nofun, nofun, @Literal.Spelled.members _ aliased.tail ?_ ?_ ?_, by decide⟩
  · show ∀ e ∈ aliased, e.Spaced
    simp [aliased, Literal.Member.Spaced, Literal.Item.Spaced, Literal.Space, Literal.isSpace]
  · show ∀ e ∈ aliased, Json.Quoted e.key e.spelled
    simp only [aliased, List.forall_mem_cons, List.not_mem_nil, IsEmpty.forall_iff, implies_true,
      and_true]
    exact ⟨Json.quoted_quote "x", Json.quoted_quote "size_limit_bytes", hname⟩
  · show ∀ e ∈ aliased, Literal.Spelled e.value.literal e.value.spelled
    simp only [aliased, List.forall_mem_cons, List.not_mem_nil, IsEmpty.forall_iff, implies_true,
      and_true]
    exact ⟨hitem, .number hseven, hconventions.spelled⟩

theorem load_eq_ok_aliased :
    (project aliasedText).read ⟨"/reqmap.json"⟩ = .ok aliasedText.toUTF8 ∧
      Literal.Spells aliasedText (.object (aliased.map Literal.Member.entry)) ∧
      DescribesConfig { conventions := { indexFile := "main" }, sizeLimit := 7 }
        (aliased.map Literal.Member.entry) ∧
      load (project aliasedText) ⟨"/reqmap.json"⟩ =
        .ok { conventions := { indexFile := "main" }, sizeLimit := 7 } := by
  have hinner : DescribesConventions { indexFile := "main" }
      [(some "index_file", textLiteral "main")] := by
    refine ⟨List.pairwise_singleton _ _, ?_, ?_⟩
    · rintro m hm f ⟨key, hkey, hname⟩
      obtain rfl := List.mem_singleton.1 hm
      cases hname
      cases f <;> simp_all [ConventionsField.names, ConventionsField.Stands]
    · rintro (_ | _ | _) hnone
      · rfl
      · rfl
      · exact absurd ⟨_, .head _, rfl⟩ (hnone _ (.head _))
  have hc : DescribesConfig { conventions := { indexFile := "main" }, sizeLimit := 7 }
      (aliased.map Literal.Member.entry) := by
    show DescribesConfig _ [(some "x", .array [.string none]),
      (some "size_limit_bytes", .number (.ofNat 7)),
      (some "resolver", .object [(some "index_file", textLiteral "main")])]
    constructor
    · simp [Gives, Field.forall_iff, Field.names]
    · simp [Gives, Field.forall_iff, Field.names, Field.Stands, hinner]
    · simp [Gives, Field.forall_iff, Field.names, Field.Agree]
  refine ⟨read_project _, spells_aliased, hc, ?_⟩
  refine load_eq_ok (read_project _) spells_aliased hc (by decide) ?_ ?_
  · simp [Named, aliased, Literal.Member.entry]
  · simp [Named, aliased, Literal.Member.entry]

/-- The name of the one field is half of a surrogate pair: it gives nothing, but it is not read. -/
theorem not_load_halfPair :
    Literal.Spells "\x7b\"\\ud800\":1\x7d" (.object [(none, .number (.ofNat 1))]) ∧
      DescribesConfig {} [(none, .number (.ofNat 1))] ∧
      (project "\x7b\"\\ud800\":1\x7d").read ⟨"/reqmap.json"⟩ =
        .ok "\x7b\"\\ud800\":1\x7d".toUTF8 ∧
      load (project "\x7b\"\\ud800\":1\x7d") ⟨"/reqmap.json"⟩ =
        .error (.malformed ⟨"/reqmap.json"⟩) := by
  have hone : (Numeral.ofNat 1).Spelled ['1'] := .mk (Numeral.wellFormed_ofNat 1) .none
  have hspells : Literal.Spells "\x7b\"\\ud800\":1\x7d" (.object [(none, .number (.ofNat 1))]) := by
    refine ⟨[], _, [], nofun, nofun, @Literal.Spelled.members
      ⟨none, [], halfPair, [], ⟨.number (.ofNat 1), [], ['1'], []⟩⟩ [] ?_ ?_ ?_, by decide⟩
    · simp [Literal.Member.Spaced, Literal.Item.Spaced, Literal.Space]
    · simpa using quoted_halfPair
    · simpa using .number hone
  refine ⟨hspells, ?_, read_project _, ?_⟩
  · constructor
    · exact List.pairwise_singleton _ _
    · simp [Gives]
    · rintro (_ | _ | _) - <;> rfl
  · unfold load
    rw [read_project]
    dsimp only
    rw [Text.Utf8.strict?_toUTF8]
    dsimp only
    unfold ofText?
    rw [hspells.ofText?_eq]
    rfl

end PackageMap.Config
