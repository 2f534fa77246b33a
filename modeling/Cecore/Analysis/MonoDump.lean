import Cecore.Core.Digits
import Mathlib.Data.List.ModifyLast

/-!
# The dump of the Mono agent

The agent in the target writes one line for every image, class and field (`dump_class`,
`on_assembly` of `plugins/mono_agent.c`), and `parseMonoDump` reads the lines back. A line has no
separators of its own: a class is cut at its last dot and a field at white space. `mono_dump_iff` is
exactly which images come back as they were.
-/

set_option autoImplicit false
set_option relaxedAutoImplicit false

namespace Cecore.Analysis

/-! ### The records -/

structure MonoField where
  name : Text
  typeName : Text
  offset : UInt32
  isStatic : Bool
  deriving DecidableEq, Repr

structure MonoClassInfo where
  namespaceName : Text
  name : Text
  fields : List MonoField
  deriving DecidableEq, Repr

structure MonoImageInfo where
  name : Text
  classes : List MonoClassInfo
  deriving DecidableEq, Repr

structure MonoDissection where
  images : List MonoImageInfo := []
  ready : Bool := false
  error : Text := []
  deriving DecidableEq, Repr

/-! ### The agent -/

/-- What stands behind `FLD` for a field: `0x%x %c %s %s`. -/
def MonoField.text (f : MonoField) : Text :=
  '0' :: 'x' :: hex f.offset.toNat ++ ' ' :: (if f.isStatic then 'S' else '-') :: ' ' :: f.typeName ++
    ' ' :: f.name

/-- What stands behind `CLS` for a class. -/
def MonoClassInfo.text (c : MonoClassInfo) : Text := c.namespaceName ++ '.' :: c.name

/-- `dump_class`. -/
def dumpClass (c : MonoClassInfo) : List Text :=
  ("CLS ".toList ++ c.text) :: c.fields.map fun f ↦ "FLD ".toList ++ f.text

/-- `on_assembly`. -/
def onAssembly (image : MonoImageInfo) : List Text :=
  ("IMG ".toList ++ image.name) :: image.classes.flatMap dumpClass

/-- The lines of the agent, which runs in the process `pid`. -/
def dumpLines (pid : ℕ) (images : List MonoImageInfo) : List Text :=
  ("# ready pid=".toList ++ decimal pid) :: images.flatMap onAssembly ++ ["# done".toList]

def dumpText (pid : ℕ) (images : List MonoImageInfo) : Text :=
  (dumpLines pid images).flatMap fun line ↦ line ++ ['\n']

/-! ### The parser -/

/-- `stream >> token`: the token, which stays empty at the end of the stream, and what is left. -/
def extract (stream : Text) : Text × Text :=
  ((stream.dropWhile isSpace).takeWhile fun c ↦ !isSpace c,
    (stream.dropWhile isSpace).dropWhile fun c ↦ !isSpace c)

/-- The `FLD` case. -/
def parseField (text : Text) : MonoField :=
  let offTok := extract text
  let staticTok := extract offTok.2
  let typeName := extract staticTok.2
  { name := typeName.2.dropWhile (· = ' ')
    typeName := typeName.1
    offset := UInt32.ofNat (strtoul 0 offTok.1)
    isStatic := staticTok.1 = ['S'] }

/-- The `CLS` case: the name is behind the last dot, unless a dot is in front. -/
def parseClass (full : Text) : MonoClassInfo :=
  if full.head? = some '.' then ⟨[], full.tail, []⟩
  else if '.' ∈ full then
    ⟨(full.reverse.dropWhile (· ≠ '.')).tail.reverse, (full.reverse.takeWhile (· ≠ '.')).reverse, []⟩
  else ⟨[], full, []⟩

def MonoClassInfo.addField (f : MonoField) (c : MonoClassInfo) : MonoClassInfo :=
  { c with fields := c.fields ++ [f] }

def MonoImageInfo.addClass (c : MonoClassInfo) (image : MonoImageInfo) : MonoImageInfo :=
  { image with classes := image.classes ++ [c] }

/-- A field goes to the last class of the image, if it has one. -/
def MonoImageInfo.addField (f : MonoField) (image : MonoImageInfo) : MonoImageInfo :=
  { image with classes := image.classes.modifyLast (MonoClassInfo.addField f) }

/-- One line. The image that is read is the last one, and the class the last of this image. -/
def parseLine (out : MonoDissection) (line : Text) : MonoDissection :=
  if line = [] then out
  else if line.head? = some '#' then
    if "# done".toList.isPrefixOf line then { out with ready := true }
    else if "# error:".toList.isPrefixOf line then
      { out with error := line.drop (8 + if (line)[8]? = some ' ' then 1 else 0) }
    else out
  else if "IMG ".toList.isPrefixOf line then
    { out with images := out.images ++ [⟨line.drop 4, []⟩] }
  else if "CLS ".toList.isPrefixOf line then
    { out with images := out.images.modifyLast (MonoImageInfo.addClass (parseClass (line.drop 4))) }
  else if "FLD ".toList.isPrefixOf line then
    { out with images := out.images.modifyLast (MonoImageInfo.addField (parseField (line.drop 4))) }
  else out

def parseMonoDump (text : Text) : MonoDissection := (getlines '\n' text).foldl parseLine {}

/-! ### Lines -/

/-- Lines that end in a separator and hold none are read back. -/
theorem getlines_flatMap {separator : Char} {lines : List Text}
    (hlines : ∀ line ∈ lines, separator ∉ line) :
    getlines separator (lines.flatMap fun line ↦ line ++ [separator]) = lines := by
  have h := getlines_flatMap_append hlines []
  rw [List.append_nil] at h
  rw [h]
  exact List.append_nil lines

/-! ### What is read back -/

/-- The class as the parser reads it from its lines. -/
def MonoClassInfo.asRead (c : MonoClassInfo) : MonoClassInfo :=
  { parseClass c.text with fields := c.fields.map fun f ↦ parseField f.text }

def MonoImageInfo.asRead (image : MonoImageInfo) : MonoImageInfo :=
  { image with classes := image.classes.map MonoClassInfo.asRead }

theorem parseLine_img (out : MonoDissection) (name : Text) :
    parseLine out ("IMG ".toList ++ name) = { out with images := out.images ++ [⟨name, []⟩] } := rfl

theorem parseLine_cls (out : MonoDissection) (full : Text) : parseLine out ("CLS ".toList ++ full) =
    { out with images := out.images.modifyLast (MonoImageInfo.addClass (parseClass full)) } := rfl

theorem parseLine_fld (out : MonoDissection) (text : Text) : parseLine out ("FLD ".toList ++ text) =
    { out with images := out.images.modifyLast (MonoImageInfo.addField (parseField text)) } := rfl

theorem fields_parseClass (full : Text) : (parseClass full).fields = [] := by
  unfold parseClass
  split_ifs <;> rfl

/-- The fields of the last class are appended one by one. -/
theorem foldl_fields (out : MonoDissection) (images : List MonoImageInfo) (name : Text)
    (classes : List MonoClassInfo) (c : MonoClassInfo) (fields : List MonoField)
    (hout : out.images = images ++ [⟨name, classes ++ [c]⟩]) :
    ((fields.map fun f ↦ "FLD ".toList ++ f.text).foldl parseLine out).images =
      images ++ [⟨name, classes ++
        [{ c with fields := c.fields ++ fields.map fun f ↦ parseField f.text }]⟩] := by
  induction fields generalizing out c with
  | nil => rw [List.map_nil, List.foldl_nil, hout, List.map_nil, List.append_nil]
  | cons f rest ih =>
    rw [List.map_cons, List.foldl_cons, parseLine_fld]
    refine (ih _ (c.addField (parseField f.text)) ?_).trans ?_
    · dsimp only
      rw [hout, List.modifyLast_concat, MonoImageInfo.addField, List.modifyLast_concat]
    · rw [MonoClassInfo.addField, List.map_cons, List.append_assoc, List.singleton_append]

/-- The classes of the last image are appended one by one. -/
theorem foldl_classes (out : MonoDissection) (images : List MonoImageInfo) (name : Text)
    (read : List MonoClassInfo) (classes : List MonoClassInfo)
    (hout : out.images = images ++ [⟨name, read⟩]) :
    ((classes.flatMap dumpClass).foldl parseLine out).images =
      images ++ [⟨name, read ++ classes.map MonoClassInfo.asRead⟩] := by
  induction classes generalizing out read with
  | nil => rw [List.flatMap_nil, List.foldl_nil, hout, List.map_nil, List.append_nil]
  | cons c rest ih =>
    rw [List.flatMap_cons, List.foldl_append, dumpClass, List.foldl_cons, parseLine_cls]
    refine (ih _ (read ++ [c.asRead]) ?_).trans ?_
    · refine (foldl_fields _ images name read (parseClass c.text) c.fields ?_).trans ?_
      · dsimp only
        rw [hout, List.modifyLast_concat, MonoImageInfo.addClass]
      · rw [fields_parseClass, List.nil_append, MonoClassInfo.asRead]
    · rw [List.map_cons, List.append_assoc, List.singleton_append]

theorem foldl_images (out : MonoDissection) (images : List MonoImageInfo) :
    ((images.flatMap onAssembly).foldl parseLine out).images =
      out.images ++ images.map MonoImageInfo.asRead := by
  induction images generalizing out with
  | nil => rw [List.flatMap_nil, List.foldl_nil, List.map_nil, List.append_nil]
  | cons image rest ih =>
    rw [List.flatMap_cons, List.foldl_append, onAssembly, List.foldl_cons, parseLine_img, ih]
    rw [foldl_classes _ out.images image.name [] image.classes rfl, List.map_cons, List.append_assoc,
      List.singleton_append, List.nil_append]
    rfl

/-! ### Cuts -/

/-- A token is read up to the blank behind it. -/
theorem extract_token {token : Text} (hsome : token ≠ []) (hsolid : ∀ c ∈ token, isSpace c = false)
    (rest : Text) : extract (token ++ ' ' :: rest) = (token, ' ' :: rest) := by
  have hkeep : ∀ c ∈ token, (!isSpace c) = true := fun c hc ↦ by rw [hsolid c hc]; rfl
  have hfront : (token ++ ' ' :: rest).dropWhile isSpace = token ++ ' ' :: rest := by
    cases token with
    | nil => exact absurd rfl hsome
    | cons c token =>
      rw [List.cons_append, List.dropWhile_cons_of_neg (by rw [hsolid c List.mem_cons_self]; simp)]
  unfold extract
  rw [hfront, List.takeWhile_append_of_pos hkeep, List.dropWhile_append_of_pos hkeep,
    List.takeWhile_cons_of_neg (by decide), List.dropWhile_cons_of_neg (by decide), List.append_nil]

/-- The blank in front of a token is passed over. -/
theorem extract_blank (rest : Text) : extract (' ' :: rest) = extract rest := by
  unfold extract
  rw [List.dropWhile_cons_of_pos (by decide)]

theorem strtoul_hex {n : ℕ} (hn : n < sizeModulus) : strtoul 0 ('0' :: 'x' :: hex n) = n := by
  have hdigits : startsDigit 16 (hex n) = true := by
    have h := @startsDigit_toDigits 16 (by decide) (by decide) n []
    rwa [List.append_nil] at h
  have hsign : takeSign (('0' :: 'x' :: hex n).dropWhile isSpace) = (false, '0' :: 'x' :: hex n) := rfl
  have hradix : numberPrefix 0 ('0' :: 'x' :: hex n) =
      (16, hex n) := if_pos ⟨.inl rfl, .inl rfl, hdigits⟩
  have hvalue : takeDigits 16 0 (hex n) = (n, []) := by
    have h := @takeDigits_toDigits 16 (by decide) (by decide) n []
    rwa [List.append_nil] at h
  have hread : readInteger 0 ('0' :: 'x' :: hex n) = some (false, n, []) := by
    rw [readInteger, hsign]
    dsimp only
    rw [hradix]
    dsimp only
    rw [if_pos hdigits, hvalue]
  unfold strtoul
  rw [hread]
  exact if_pos hn

/-- The line of a field is cut behind the offset, the mark and a first token. -/
theorem parseField_text (f : MonoField) : parseField f.text =
    { f with
      name := (extract (f.typeName ++ ' ' :: f.name)).2.dropWhile (· = ' ')
      typeName := (extract (f.typeName ++ ' ' :: f.name)).1 } := by
  have hsolid : ∀ c ∈ '0' :: 'x' :: hex f.offset.toNat, isSpace c = false := by
    intro c hc
    rcases List.mem_cons.mp hc with rfl | hc
    · rfl
    rcases List.mem_cons.mp hc with rfl | hc
    · rfl
    · exact (isNumeral_of_mem (by decide) le_rfl hc).plain.1
  have hoffset : UInt32.ofNat (strtoul 0 ('0' :: 'x' :: hex f.offset.toNat)) = f.offset := by
    rw [strtoul_hex (f.offset.toNat_lt.trans (by decide)), UInt32.ofNat_toNat]
  have hmark : ∀ rest : Text, extract (' ' :: (if f.isStatic then 'S' else '-') :: ' ' :: rest) =
      ([if f.isStatic then 'S' else '-'], ' ' :: rest) := by
    intro rest
    rw [extract_blank]
    exact @extract_token [if f.isStatic then 'S' else '-'] (List.cons_ne_nil _ _)
      (fun c hc ↦ by rw [List.mem_singleton.mp hc]; split_ifs <;> rfl) rest
  have hstatic : decide ([if f.isStatic then 'S' else '-'] = ['S']) = f.isStatic := by
    cases f.isStatic <;> rfl
  have htext : f.text = ('0' :: 'x' :: hex f.offset.toNat) ++
      ' ' :: (if f.isStatic then 'S' else '-') :: ' ' :: (f.typeName ++ ' ' :: f.name) := by
    unfold MonoField.text
    simp only [List.cons_append, List.append_assoc]
  unfold parseField
  rw [htext, extract_token (List.cons_ne_nil _ _) hsolid]
  dsimp only
  rw [hmark, hoffset, hstatic]
  dsimp only
  rw [extract_blank]

/-- The type is one word, and the name does not begin with a blank; or both are empty. -/
def MonoField.Splits (f : MonoField) : Prop :=
  f.typeName ≠ [] ∧ (∀ c ∈ f.typeName, isSpace c = false) ∧ f.name.head? ≠ some ' ' ∨
    f.typeName = [] ∧ f.name = []

theorem parseField_text_iff (f : MonoField) : parseField f.text = f ↔ f.Splits := by
  have hparts : parseField f.text = f ↔ (extract (f.typeName ++ ' ' :: f.name)).1 = f.typeName ∧
      (extract (f.typeName ++ ' ' :: f.name)).2.dropWhile (· = ' ') = f.name := by
    rw [parseField_text]
    constructor
    · intro h
      exact ⟨congrArg MonoField.typeName h, congrArg MonoField.name h⟩
    · rintro ⟨htype, hname⟩
      rw [htype, hname]
  rw [hparts]
  constructor
  · rintro ⟨htype, hname⟩
    by_cases hempty : f.typeName = []
    · refine .inr ⟨hempty, ?_⟩
      rw [hempty, List.nil_append, extract_blank] at htype hname
      -- Without a first token there is nothing but white space.
      have hblank : f.name.dropWhile isSpace = [] := by
        cases hdrop : f.name.dropWhile isSpace with
        | nil => rfl
        | cons c rest =>
          have hc : (!isSpace c) = true := by
            have h := List.head?_dropWhile_not isSpace f.name
            simpa [hdrop] using h
          have hfirst : (extract f.name).1 = c :: rest.takeWhile fun d ↦ !isSpace d := by
            unfold extract
            rw [hdrop]
            exact @List.takeWhile_cons_of_pos _ (fun d ↦ !isSpace d) _ _ hc
          rw [hfirst] at htype
          cases htype
      unfold extract at hname
      rw [hblank] at hname
      exact hname.symm
    · have hsolid : ∀ c ∈ f.typeName, isSpace c = false := by
        intro c hc
        rw [← htype] at hc
        have h := List.all_eq_true.mp List.all_takeWhile c hc
        simpa using h
      rw [extract_token hempty hsolid, List.dropWhile_cons_of_pos (by decide)] at hname
      refine .inl ⟨hempty, hsolid, fun hhead ↦ ?_⟩
      cases hcase : f.name with
      | nil => rw [hcase] at hhead; cases hhead
      | cons c rest =>
        rw [hcase] at hhead hname
        obtain rfl := Option.some.inj hhead
        rw [List.dropWhile_cons_of_pos (by decide)] at hname
        have hlength := (List.dropWhile_suffix (l := rest) fun d ↦ decide (d = ' ')).length_le
        rw [hname, List.length_cons] at hlength
        omega
  · rintro (⟨hsome, hsolid, hhead⟩ | ⟨htype, hname⟩)
    · rw [extract_token hsome hsolid, List.dropWhile_cons_of_pos (by decide)]
      refine ⟨rfl, ?_⟩
      cases hcase : f.name with
      | nil => rfl
      | cons c rest =>
        rw [hcase] at hhead
        refine List.dropWhile_cons_of_neg ?_
        simpa using hhead
    · rw [htype, hname]
      exact ⟨rfl, rfl⟩

/-- The namespace is empty; or it does not begin with a dot, and the name has none. -/
def MonoClassInfo.Splits (c : MonoClassInfo) : Prop :=
  c.namespaceName = [] ∨ c.namespaceName.head? ≠ some '.' ∧ '.' ∉ c.name

theorem parseClass_text_iff (c : MonoClassInfo) :
    { parseClass c.text with fields := c.fields } = c ↔ c.Splits := by
  obtain ⟨space, name, fields⟩ := c
  have hdot : ∀ tail : Text, (parseClass ('.' :: tail)) = ⟨[], tail, []⟩ := fun tail ↦ if_pos rfl
  unfold MonoClassInfo.text MonoClassInfo.Splits
  dsimp only
  cases space with
  | nil => exact iff_of_true (by rw [List.nil_append, hdot]) (.inl rfl)
  | cons first rest =>
    by_cases hfirst : first = '.'
    · subst hfirst
      refine iff_of_false (fun h ↦ ?_) (by simp)
      rw [List.cons_append, hdot] at h
      exact absurd (congrArg MonoClassInfo.namespaceName h) (by simp)
    · have hcut : parseClass (first :: rest ++ '.' :: name) =
          ⟨((first :: rest ++ '.' :: name).reverse.dropWhile (· ≠ '.')).tail.reverse,
            ((first :: rest ++ '.' :: name).reverse.takeWhile (· ≠ '.')).reverse, []⟩ := by
        unfold parseClass
        rw [if_neg (by simpa using hfirst), if_pos (by simp)]
      rw [hcut]
      constructor
      · intro h
        refine .inr ⟨by simpa using hfirst, fun hmem ↦ ?_⟩
        have hname : _ = name := congrArg MonoClassInfo.name h
        rw [← hname] at hmem
        have h := List.all_eq_true.mp List.all_takeWhile _ (List.mem_reverse.mp hmem)
        simp at h
      · rintro (hnone | ⟨-, hname⟩)
        · cases hnone
        · have hkeep : ∀ d ∈ name.reverse, decide (d ≠ '.') = true := fun d hd ↦
            decide_eq_true fun heq ↦ hname (heq ▸ List.mem_reverse.mp hd)
          have hreverse : (first :: rest ++ '.' :: name).reverse =
              name.reverse ++ '.' :: (first :: rest).reverse := by simp
          rw [hreverse, List.takeWhile_append_of_pos hkeep, List.dropWhile_append_of_pos hkeep,
            List.takeWhile_cons_of_neg (by decide), List.dropWhile_cons_of_neg (by decide),
              List.tail_cons,
            List.append_nil, List.reverse_reverse, List.reverse_reverse]

/-! ### The dump -/

/-- No name of the image holds a line break. -/
structure MonoImageInfo.OneLine (image : MonoImageInfo) : Prop where
  name : '\n' ∉ image.name
  classes : ∀ c ∈ image.classes, '\n' ∉ c.namespaceName ∧ '\n' ∉ c.name ∧
    ∀ f ∈ c.fields, '\n' ∉ f.typeName ∧ '\n' ∉ f.name

theorem not_mem_toDigits {base : ℕ} (hbase : 1 < base) (hmax : base ≤ 16) (n : ℕ) :
    '\n' ∉ Nat.toDigits base n := fun hmem ↦
  absurd (isNumeral_of_mem hbase hmax hmem).plain.1 (by decide)

theorem MonoImageInfo.OneLine.lines {image : MonoImageInfo} (h : image.OneLine) :
    ∀ line ∈ onAssembly image, '\n' ∉ line := by
  intro line hline
  rcases List.mem_cons.mp hline with rfl | hline
  · rw [List.mem_append, not_or]
    exact ⟨by decide, h.name⟩
  obtain ⟨c, hc, hline⟩ := List.mem_flatMap.mp hline
  obtain ⟨hspace, hname, hfields⟩ := h.classes c hc
  rcases List.mem_cons.mp hline with rfl | hline
  · unfold MonoClassInfo.text
    rw [List.mem_append, List.mem_append, List.mem_cons]
    rintro (hmem | hmem | hmem | hmem)
    · exact absurd hmem (by decide)
    · exact hspace hmem
    · exact absurd hmem (by decide)
    · exact hname hmem
  obtain ⟨f, hf, rfl⟩ := List.mem_map.mp hline
  obtain ⟨htype, hfield⟩ := hfields f hf
  have hmark : '\n' ≠ (if f.isStatic then 'S' else '-') := by split_ifs <;> decide
  have hoffset : '\n' ∉ hex f.offset.toNat := not_mem_toDigits (by decide) le_rfl _
  have htext : '\n' ∉ f.text := by
    unfold MonoField.text
    simp only [List.cons_append, List.append_assoc, List.mem_cons, List.mem_append, not_or]
    exact ⟨by decide, by decide, hoffset, by decide, hmark, by decide, htype, by decide, hfield⟩
  rw [List.mem_append, not_or]
  exact ⟨by decide, htext⟩

theorem images_parseMonoDump (pid : ℕ) {images : List MonoImageInfo}
    (hlines : ∀ image ∈ images, image.OneLine) :
    (parseMonoDump (dumpText pid images)).images = images.map MonoImageInfo.asRead := by
  have hready : ∀ line ∈ dumpLines pid images, '\n' ∉ line := by
    intro line hline
    rcases List.mem_append.mp hline with hfront | hdone
    · rcases List.mem_cons.mp hfront with rfl | hrecord
      · rw [List.mem_append, not_or]
        exact ⟨by decide, not_mem_toDigits (by decide) (by decide) pid⟩
      · obtain ⟨image, himage, hline⟩ := List.mem_flatMap.mp hrecord
        exact (hlines image himage).lines line hline
    · rw [List.mem_singleton.mp hdone]
      decide
  have hfirst : parseLine {} ("# ready pid=".toList ++ decimal pid) = {} := rfl
  have hlast : ∀ out : MonoDissection, (parseLine out "# done".toList).images =
      out.images := fun _ ↦ rfl
  unfold parseMonoDump dumpText
  rw [getlines_flatMap hready, dumpLines, List.foldl_append, List.foldl_cons, List.foldl_nil, hlast,
    List.foldl_cons, hfirst, foldl_images]
  exact List.nil_append _

theorem map_eq_self_iff {α : Type} {f : α → α} {l : List α} : l.map f = l ↔ ∀ x ∈ l, f x = x := by
  conv_lhs => rhs; rw [← List.map_id l]
  exact List.map_inj_left

theorem MonoClassInfo.asRead_eq_iff (c : MonoClassInfo) :
    c.asRead = c ↔ c.Splits ∧ ∀ f ∈ c.fields, f.Splits := by
  have hfields : (c.fields.map fun f ↦ parseField f.text) = c.fields ↔ ∀ f ∈ c.fields, f.Splits := by
    rw [map_eq_self_iff]
    exact forall₂_congr fun f _ ↦ parseField_text_iff f
  constructor
  · intro h
    have hsame : (c.fields.map fun f ↦ parseField f.text) = c.fields := congrArg MonoClassInfo.fields h
    unfold MonoClassInfo.asRead at h
    rw [hsame] at h
    exact ⟨(parseClass_text_iff c).mp h, hfields.mp hsame⟩
  · rintro ⟨hclass, hsplit⟩
    unfold MonoClassInfo.asRead
    rw [hfields.mpr hsplit]
    exact (parseClass_text_iff c).mpr hclass

/-- The images come back as they were exactly if every class and every field splits where it was
joined. -/
theorem mono_dump_iff (pid : ℕ) (images : List MonoImageInfo)
    (hlines : ∀ image ∈ images, image.OneLine) :
    (parseMonoDump (dumpText pid images)).images = images ↔
      ∀ image ∈ images, ∀ c ∈ image.classes, c.Splits ∧ ∀ f ∈ c.fields, f.Splits := by
  rw [images_parseMonoDump pid hlines, map_eq_self_iff]
  refine forall₂_congr fun image _ ↦ ?_
  have hclasses : image.asRead = image ↔ image.classes.map MonoClassInfo.asRead = image.classes := by
    constructor
    · exact fun h ↦ congrArg MonoImageInfo.classes h
    · intro h
      unfold MonoImageInfo.asRead
      rw [h]
  rw [hclasses, map_eq_self_iff]
  exact forall₂_congr fun c _ ↦ c.asRead_eq_iff

/-- A class that Mono could have loaded, with its namespace and two fields. -/
theorem player_comes_back :
    (parseMonoDump (dumpText 4242 [⟨"Assembly-CSharp".toList, [⟨[], "<Module>".toList, []⟩,
        ⟨"Game.Core".toList, "Player".toList, [⟨"health".toList, "System.Int32".toList, 16, false⟩,
          ⟨"<Count>k__BackingField".toList, "System.Int64".toList, 0, true⟩]⟩]⟩])).images =
      [⟨"Assembly-CSharp".toList, [⟨[], "<Module>".toList, []⟩,
        ⟨"Game.Core".toList, "Player".toList, [⟨"health".toList, "System.Int32".toList, 16, false⟩,
          ⟨"<Count>k__BackingField".toList, "System.Int64".toList, 0, true⟩]⟩]⟩] := by
  refine (mono_dump_iff 4242 _ ?_).mpr ?_
  · intro image himage
    obtain rfl := List.mem_singleton.mp himage
    exact ⟨by decide, by decide⟩
  · intro image himage
    obtain rfl := List.mem_singleton.mp himage
    intro c hc
    rcases List.mem_cons.mp hc with rfl | hc
    · exact ⟨.inl rfl, fun f hf ↦ absurd hf List.not_mem_nil⟩
    · obtain rfl := List.mem_singleton.mp hc
      refine ⟨.inr (by decide), fun f hf ↦ .inl ?_⟩
      rcases List.mem_cons.mp hf with rfl | hf
      · decide
      · obtain rfl := List.mem_singleton.mp hf
        decide

/-- A type with a space gives a part of itself to the name, and a class loses all before its last
dot. -/
theorem generic_field_differs :
    let images : List MonoImageInfo := [⟨"Assembly-CSharp".toList, [⟨"Game".toList, "Bag.Slots".toList,
      [⟨"items".toList, "Dictionary<System.String, System.Int32>".toList, 24, false⟩]⟩]⟩]
    (parseMonoDump (dumpText 4242 images)).images ≠ images ∧
      (parseMonoDump (dumpText 4242 images)).images =
        [⟨"Assembly-CSharp".toList, [⟨"Game.Bag".toList, "Slots".toList,
          [⟨"System.Int32> items".toList, "Dictionary<System.String,".toList, 24, false⟩]⟩]⟩] := by
  decide

end Cecore.Analysis
