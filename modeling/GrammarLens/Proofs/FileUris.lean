import GrammarLens.Uri
import Mathlib.Data.List.TakeWhile

/-! # File URIs read back

A path becomes a URI in three steps: its names are joined by slashes, the characters become bytes,
and the bytes that do not stand for themselves are escaped.  Reading undoes each of them.  Bytes are
read back to the characters they came from (`Utf8.decodeLossy_encode`) and escapes to bytes
(`Uri.unescapeBytes_flatMap_escapeByte`).  No mark that ends a path in a URI is left unescaped, so
all of the path is found behind the scheme (`Uri.toPath_file`).  And names without slashes are found
again between slashes (`Path.ofText_joined`). -/

namespace GrammarLens

/-! ### Bytes of characters -/

namespace Utf8

/-- A character has one to four bytes.  The first tells how many, and all have six bits of its code
but the first, which has the rest. -/
theorem encodeChar_eq (c : Char) :
    encodeChar c =
      if c.toNat ≤ 0x7f then [UInt8.ofNat c.toNat]
      else if c.toNat ≤ 0x7ff then
        [UInt8.ofNat (c.toNat / 64 % 32 + 192), UInt8.ofNat (c.toNat % 64 + 128)]
      else if c.toNat ≤ 0xffff then
        [UInt8.ofNat (c.toNat / 4096 % 16 + 224), UInt8.ofNat (c.toNat / 64 % 64 + 128),
          UInt8.ofNat (c.toNat % 64 + 128)]
      else
        [UInt8.ofNat (c.toNat / 262144 % 8 + 240), UInt8.ofNat (c.toNat / 4096 % 64 + 128),
          UInt8.ofNat (c.toNat / 64 % 64 + 128), UInt8.ofNat (c.toNat % 64 + 128)] := rfl

section Steps

variable (w : Nat)

theorem step_single (h : w < 128) :
    step none (UInt8.ofNat w) = ⟨[some (Char.ofNat w)], none⟩ := by
  rw [step, start, UInt8.toNat_ofNat', Nat.mod_eq_of_lt (by omega), if_pos h]

theorem step_first_of_two (hlow : 2 ≤ w) (hhigh : w < 32) :
    step none (UInt8.ofNat (w + 192)) = ⟨[], some ⟨1, 0x80, 0xbf, w⟩⟩ := by
  rw [step, start, UInt8.toNat_ofNat', Nat.mod_eq_of_lt (by omega), if_neg (by omega),
    if_neg (by omega), if_pos (by omega), Nat.add_sub_cancel]

theorem step_first_of_three (h : w < 16) :
    step none (UInt8.ofNat (w + 224)) =
      ⟨[], some ⟨2, if w = 0 then 0xa0 else 0x80, if w = 13 then 0x9f else 0xbf, w⟩⟩ := by
  rw [step, start, UInt8.toNat_ofNat', Nat.mod_eq_of_lt (by omega), if_neg (by omega),
    if_neg (by omega), if_neg (by omega), if_pos (by omega), Nat.add_sub_cancel]
  simp

theorem step_first_of_four (h : w < 5) :
    step none (UInt8.ofNat (w + 240)) =
      ⟨[], some ⟨3, if w = 0 then 0x90 else 0x80, if w = 4 then 0x8f else 0xbf, w⟩⟩ := by
  rw [step, start, UInt8.toNat_ofNat', Nat.mod_eq_of_lt (by omega), if_neg (by omega),
    if_neg (by omega), if_neg (by omega), if_neg (by omega), if_pos (by omega), Nat.add_sub_cancel]
  simp

/-- A byte inside a character adds six bits. -/
theorem step_inside (missing : Nat) {low high : Nat} (hlow : low ≤ w % 64 + 128)
    (hhigh : w % 64 + 128 ≤ high) :
    step (some ⟨missing, low, high, w / 64⟩) (UInt8.ofNat (w % 64 + 128)) =
      if missing ≤ 1 then ⟨[some (Char.ofNat w)], none⟩
      else ⟨[], some ⟨missing - 1, 0x80, 0xbf, w⟩⟩ := by
  have hbits : w / 64 * 64 + (w % 64 + 128 - 128) = w := by omega
  have hbyte : (w % 64 + 128) % 2 ^ 8 = w % 64 + 128 := Nat.mod_eq_of_lt (by omega)
  simp only [step, resume, UInt8.toNat_ofNat', hbyte, hlow, hhigh, and_self, if_true, hbits]

theorem step_last :
    step (some ⟨1, 0x80, 0xbf, w / 64⟩) (UInt8.ofNat (w % 64 + 128)) =
      ⟨[some (Char.ofNat w)], none⟩ := by
  rw [step_inside w 1 (by omega) (by omega), if_pos (Nat.le_refl 1)]

theorem step_more (missing : Nat) {low high : Nat} (hlow : low ≤ w % 64 + 128)
    (hhigh : w % 64 + 128 ≤ high) :
    step (some ⟨missing + 2, low, high, w / 64⟩) (UInt8.ofNat (w % 64 + 128)) =
      ⟨[], some ⟨missing + 1, 0x80, 0xbf, w⟩⟩ := by
  rw [step_inside w (missing + 2) hlow hhigh, if_neg (by omega)]
  rfl

end Steps

section Reading

variable {pending : Option Pending} {byte : UInt8} (bytes : List UInt8)

theorem decodeFrom_of_pending {p : Pending} (h : step pending byte = ⟨[], some p⟩) :
    decodeFrom pending (byte :: bytes) = decodeFrom (some p) bytes := by
  rw [decodeFrom, h, List.nil_append]

theorem decodeFrom_of_read {c : Char} (h : step pending byte = ⟨[some c], none⟩) :
    decodeFrom pending (byte :: bytes) = some c :: decodeFrom none bytes := by
  rw [decodeFrom, h, List.singleton_append]

/-- The bytes of a character bring that character.  The bits that are read after each byte are its
code without the last six bits, as many times as bytes are to come. -/
theorem decodeFrom_encodeChar (c : Char) :
    decodeFrom none (encodeChar c ++ bytes) = some c :: decodeFrom none bytes := by
  have hvalid : c.toNat < 0xd800 ∨ 0xdfff < c.toNat ∧ c.toNat < 0x110000 := c.valid
  have hchar := Char.ofNat_toNat c
  rw [encodeChar_eq]
  generalize c.toNat = v at hvalid hchar
  split
  · rw [List.singleton_append, decodeFrom_of_read _ (step_single v (by omega)), hchar]
  split
  · have hlead : v / 64 % 32 = v / 64 := by omega
    rw [hlead, List.cons_append, List.singleton_append,
      decodeFrom_of_pending _ (step_first_of_two (v / 64) (by omega) (by omega)),
      decodeFrom_of_read _ (step_last v), hchar]
  split
  · have hlead : v / 4096 % 16 = v / 64 / 64 := by omega
    -- The second byte leaves out codes that need fewer bytes, and halves of pairs.
    have hlow : (if v / 64 / 64 = 0 then 0xa0 else 0x80) ≤ v / 64 % 64 + 128 := by split <;> omega
    have hhigh : v / 64 % 64 + 128 ≤ if v / 64 / 64 = 13 then 0x9f else 0xbf := by split <;> omega
    rw [hlead, List.cons_append, List.cons_append, List.singleton_append,
      decodeFrom_of_pending _ (step_first_of_three (v / 64 / 64) (by omega)),
      decodeFrom_of_pending _ (step_more (v / 64) 0 hlow hhigh),
      decodeFrom_of_read _ (step_last v), hchar]
  · have hlead : v / 262144 % 8 = v / 64 / 64 / 64 := by omega
    have hsecond : v / 4096 = v / 64 / 64 := by omega
    -- Here it leaves out codes that need fewer bytes, and those past the last character.
    have hlow : (if v / 64 / 64 / 64 = 0 then 0x90 else 0x80) ≤ v / 64 / 64 % 64 + 128 := by
      split <;> omega
    have hhigh : v / 64 / 64 % 64 + 128 ≤ if v / 64 / 64 / 64 = 4 then 0x8f else 0xbf := by
      split <;> omega
    have hlow' : 0x80 ≤ v / 64 % 64 + 128 := by omega
    have hhigh' : v / 64 % 64 + 128 ≤ 0xbf := by omega
    rw [hlead, hsecond, List.cons_append, List.cons_append, List.cons_append, List.singleton_append,
      decodeFrom_of_pending _ (step_first_of_four (v / 64 / 64 / 64) (by omega)),
      decodeFrom_of_pending _ (step_more (v / 64 / 64) 1 hlow hhigh),
      decodeFrom_of_pending _ (step_more (v / 64) 0 hlow' hhigh'),
      decodeFrom_of_read _ (step_last v), hchar]

end Reading

theorem decodeFrom_encode (cs : List Char) : decodeFrom none (encode cs) = cs.map some := by
  induction cs with
  | nil => rfl
  | cons c cs ih =>
      have hcons : encode (c :: cs) = encodeChar c ++ encode cs := List.flatMap_cons
      rw [hcons, decodeFrom_encodeChar, ih, List.map_cons]

/-- The bytes of a text spell that text. -/
theorem decodeLossy_encode (cs : List Char) : decodeLossy (encode cs) = cs := by
  rw [decodeLossy, decodeFrom_encode, List.map_map]
  exact List.map_id cs

end Utf8

/-! ### Escapes -/

namespace Uri

theorem forall_byte {P : UInt8 → Prop} (h : ∀ n < 256, P (UInt8.ofNat n)) (byte : UInt8) :
    P byte := by
  rw [← UInt8.ofNat_toNat (x := byte)]
  exact h byte.toNat byte.toNat_lt

theorem hexValue?_upperHexDigit : ∀ n < 16, hexValue? (upperHexDigit n) = some n := by decide

theorem hexByte?_upperHexDigit (byte : UInt8) :
    hexByte? (upperHexDigit (byte.toNat / 16)) (upperHexDigit (byte.toNat % 16)) = some byte := by
  have hlt := byte.toNat_lt
  rw [hexByte?, hexValue?_upperHexDigit _ (by omega), hexValue?_upperHexDigit _ (by omega)]
  show some (UInt8.ofNat (byte.toNat / 16 * 16 + byte.toNat % 16)) = some byte
  rw [Nat.div_add_mod', UInt8.ofNat_toNat]

/-- A byte that stands for itself is no percent sign and the only byte of its character. -/
theorem encodeChar_of_isPlain : ∀ byte : UInt8, isPlain byte = true →
    Char.ofNat byte.toNat ≠ '%' ∧ Utf8.encodeChar (Char.ofNat byte.toNat) = [byte] :=
  forall_byte (by decide +kernel)

theorem unescapeBytes_cons_of_ne {c : Char} (hc : c ≠ '%') (cs : List Char) :
    unescapeBytes (c :: cs) = Utf8.encodeChar c ++ unescapeBytes cs := by
  rw [unescapeBytes]
  rintro a b more rfl
  exact absurd rfl hc

theorem unescapeBytes_escapeByte (byte : UInt8) (cs : List Char) :
    unescapeBytes (escapeByte byte ++ cs) = byte :: unescapeBytes cs := by
  rw [escapeByte]
  split
  · rename_i hplain
    obtain ⟨hne, hbyte⟩ := encodeChar_of_isPlain byte hplain
    rw [List.singleton_append, unescapeBytes_cons_of_ne hne, hbyte, List.singleton_append]
  · rw [List.cons_append, List.cons_append, List.singleton_append, unescapeBytes,
      hexByte?_upperHexDigit]

theorem unescapeBytes_flatMap_escapeByte (bytes : List UInt8) :
    unescapeBytes (bytes.flatMap escapeByte) = bytes := by
  induction bytes with
  | nil => rfl
  | cons byte bytes ih => rw [List.flatMap_cons, unescapeBytes_escapeByte, ih]

/-- An escaped text stands for that text. -/
theorem unescape_escape (cs : List Char) : unescape (escape cs) = cs := by
  rw [unescape, escape, unescapeBytes_flatMap_escapeByte, Utf8.decodeLossy_encode]

/-! ### Parts of a URI -/

/-- The characters that are dropped from a URI, or end the path in it. -/
def cutting : List Char := ['\t', '\r', '\n', '?', '#']

theorem not_cutting_of_isPlain : ∀ byte : UInt8, isPlain byte = true →
    Char.ofNat byte.toNat ∉ cutting :=
  forall_byte (by decide +kernel)

theorem upperHexDigit_not_cutting : ∀ n < 16, upperHexDigit n ∉ cutting := by decide

theorem escapeByte_not_cutting (byte : UInt8) : ∀ c ∈ escapeByte byte, c ∉ cutting := by
  have hlt := byte.toNat_lt
  rw [escapeByte]
  split
  · rename_i hplain
    exact List.forall_mem_singleton.mpr (not_cutting_of_isPlain byte hplain)
  · simp only [List.forall_mem_cons]
    exact ⟨by decide, upperHexDigit_not_cutting _ (by omega),
      upperHexDigit_not_cutting _ (by omega), List.forall_mem_nil _⟩

theorem escape_not_cutting {cs : List Char} : ∀ c ∈ escape cs, c ∉ cutting := by
  intro c hc
  obtain ⟨byte, -, hbyte⟩ := List.mem_flatMap.mp hc
  exact escapeByte_not_cutting byte c hbyte

/-- What comes before the path in the URI of a file. -/
def scheme : List Char := ['f', 'i', 'l', 'e', ':', '/', '/']

theorem clean_file {cs : List Char} (h : ∀ c ∈ cs, c ∉ cutting) :
    clean (scheme ++ cs) = scheme ++ cs := by
  have hstart : (scheme ++ cs).dropWhile (·.toNat ≤ 0x20) = scheme ++ cs := rfl
  have hscheme : ∀ c ∈ scheme, c ∉ cutting := by simp [scheme, cutting]
  rw [clean, hstart, List.filter_eq_self]
  intro c hc
  have hkept : c ∉ cutting := (List.mem_append.mp hc).elim (hscheme c) (h c)
  simp only [cutting, List.mem_cons, not_or] at hkept
  simp [hkept]

theorem pathPart_file {cs : List Char} (h : ∀ c ∈ '/' :: cs, c ∉ cutting) :
    pathPart ('/' :: '/' :: '/' :: cs) = '/' :: cs := by
  have hne (mark : Char) (hmark : mark ∈ cutting) :
      ('/' :: cs).takeWhile (· != mark) = '/' :: cs := by
    rw [List.takeWhile_eq_self_iff]
    intro c hc
    refine bne_iff_ne.mpr ?_
    rintro rfl
    exact h c hc hmark
  have hdrop : dropHost ('/' :: '/' :: '/' :: cs) = '/' :: cs := rfl
  rw [pathPart, hdrop, hne '#' (by decide), hne '?' (by decide)]

/-- A path behind the scheme of files and no host is found again, if nothing in it is cut off. -/
theorem toPath_file {cs : List Char} (h : ∀ c ∈ '/' :: cs, c ∉ cutting) :
    toPath (String.ofList (scheme ++ '/' :: cs)) = .ok (Path.ofChars (unescape ('/' :: cs))) := by
  have hsplit : splitScheme (scheme ++ '/' :: cs) =
      (['f', 'i', 'l', 'e'], '/' :: '/' :: '/' :: cs) := rfl
  have hhost : checkHost (hostPart ('/' :: '/' :: '/' :: cs)) = .ok () := rfl
  rw [toPath, String.toList_ofList, clean_file h, hsplit]
  simp only [hhost, pathPart_file h]
  rfl

end Uri

/-! ### Names between slashes -/

namespace Path

/-- Whether a text names something in a directory, and nothing else. -/
structure IsName (name : String) : Prop where
  ne_empty : name ≠ ""
  ne_dot : name ≠ "."
  ne_dots : name ≠ ".."
  slash_not_mem : '/' ∉ name.toList
  nul_not_mem : '\x00' ∉ name.toList

instance (name : String) : Decidable (IsName name) :=
  decidable_of_iff
    (name ≠ "" ∧ name ≠ "." ∧ name ≠ ".." ∧ '/' ∉ name.toList ∧ '\x00' ∉ name.toList)
    ⟨fun h => ⟨h.1, h.2.1, h.2.2.1, h.2.2.2.1, h.2.2.2.2⟩, fun h => ⟨h.1, h.2, h.3, h.4, h.5⟩⟩

/-- A text that spells a path from the root of everything, with nothing left to resolve: each name
has a slash before it, and the root alone is one slash. -/
def IsResolved (text : String) : Prop :=
  ∃ names : List String, (∀ name ∈ names, IsName name) ∧ text = "/" ++ "/".intercalate names

theorem slashesOf_cons {cs : List Char} (h : cs.head? ≠ some '/') : slashesOf ('/' :: cs) = 1 := by
  have hone : ('/' :: cs).takeWhile (· == '/') = ['/'] := by
    cases cs with
    | nil => rfl
    | cons c cs =>
        have hc : (c == '/') = false := beq_false_of_ne fun heq => h (congrArg some heq)
        rw [List.takeWhile_cons_of_pos rfl, List.takeWhile_cons_of_neg (by simp [hc])]
  rw [slashesOf, hone]
  rfl

section Names

variable {names : List String} (h : ∀ name ∈ names, IsName name)

include h

theorem head?_joined : (['/'].intercalate (names.map String.toList)).head? ≠ some '/' := by
  cases names with
  | nil => simp
  | cons name more =>
      have hname := h name List.mem_cons_self
      obtain ⟨c, cs, hcs⟩ :=
        List.exists_cons_of_ne_nil (mt String.toList_eq_nil_iff.mp hname.ne_empty)
      have hhead : (['/'].intercalate ((name :: more).map String.toList)).head? = some c := by
        cases more <;> simp [hcs]
      rw [hhead]
      rintro ⟨⟩
      exact hname.slash_not_mem (hcs ▸ List.mem_cons_self)

theorem pieces_joined :
    (splitSlashes ('/' :: ['/'].intercalate (names.map String.toList))).filter
      (fun piece => piece ≠ [] && piece ≠ ['.']) = names.map String.toList := by
  have hcut (cs : List Char) : splitSlashes ('/' :: cs) = [] :: splitAtMark '/' cs := by
    rw [splitSlashes, splitAtMark, if_pos rfl]
  by_cases hne : names = []
  · subst hne
    rfl
  · have hslash : ∀ piece ∈ names.map String.toList, '/' ∉ piece :=
      List.forall_mem_map.mpr fun name hname => (h name hname).slash_not_mem
    rw [hcut, splitAtMark_intercalate (mt List.map_eq_nil_iff.mp hne) hslash,
      List.filter_cons_of_neg (by simp), List.filter_eq_self]
    refine List.forall_mem_map.mpr fun name hname => ?_
    have hdot : name.toList ≠ ['.'] := fun heq => (h name hname).ne_dot (String.toList_inj.mp heq)
    simp [(h name hname).ne_empty, hdot]

/-- Names that are joined by slashes are found again. -/
theorem ofText_joined : ofText ("/" ++ "/".intercalate names) = ⟨1, names⟩ := by
  have htext : ("/" ++ "/".intercalate names).toList =
      '/' :: ['/'].intercalate (names.map String.toList) := by
    rw [String.toList_append, String.toList_intercalate]
    rfl
  have hback : (names.map String.toList).map String.ofList = names := by simp
  simp only [ofText, ofChars, htext, slashesOf_cons (head?_joined h), pieces_joined h, hback]

theorem follow_names (place : List String) : follow place names = place ++ names := by
  induction names generalizing place with
  | nil => rw [follow, List.append_nil]
  | cons name names ih =>
      obtain ⟨hname, hnames⟩ := List.forall_mem_cons.mp h
      rw [follow, if_neg hname.ne_dots, ih hnames, List.append_assoc, List.singleton_append]

theorem resolve_names (directory : Path) : resolve ⟨1, names⟩ directory = .ok ⟨1, names⟩ := by
  have hnul : names.any hasNul = false := by
    rw [List.any_eq_false]
    intro name hname
    simpa [hasNul] using (h name hname).nul_not_mem
  rw [resolve, hnul]
  simp [follow_names h]

end Names

theorem render_names (names : List String) : render ⟨1, names⟩ = "/" ++ "/".intercalate names := by
  rw [render, if_neg (by simp)]
  rfl

end Path

namespace Uri

theorem toPath_ofPath {names : List String} (h : ∀ name ∈ names, Path.IsName name)
    (directory : Path) :
    ∃ uri, ofPath ⟨1, names⟩ directory = .ok uri ∧ toPath uri = .ok ⟨1, names⟩ := by
  obtain ⟨cs, htext⟩ : ∃ cs, ("/" ++ "/".intercalate names).toList = '/' :: cs :=
    ⟨_, String.toList_append⟩
  have hescape : escape ('/' :: cs) = '/' :: escape cs := rfl
  refine ⟨String.ofList (scheme ++ '/' :: escape cs), ?_, ?_⟩
  · rw [ofPath, Path.resolve_names h]
    show Except.ok ("file://" ++ String.ofList (escape (Path.render ⟨1, names⟩).toList)) = _
    rw [Path.render_names, htext, hescape, String.ofList_append]
    rfl
  · have hkept : ∀ c ∈ '/' :: escape cs, c ∉ cutting := hescape ▸ escape_not_cutting
    rw [toPath_file hkept, ← hescape, unescape_escape, ← htext]
    exact congrArg Except.ok (Path.ofText_joined h)

/-- The URI of a resolved path is read back to that path and to its text, and so no other such path
has this URI. -/
theorem resolved_path_read_back (directory : Path) {text : String} (h : Path.IsResolved text) :
    (∃ uri, ofPath (Path.ofText text) directory = .ok uri ∧
      toPath uri = .ok (Path.ofText text) ∧ (toPath uri).map Path.render = .ok text) ∧
    ∀ (other : String) (directory' : Path), Path.IsResolved other →
      ofPath (Path.ofText other) directory' = ofPath (Path.ofText text) directory →
      other = text := by
  obtain ⟨names, hnames, rfl⟩ := h
  rw [Path.ofText_joined hnames]
  obtain ⟨uri, huri, hback⟩ := toPath_ofPath hnames directory
  refine ⟨⟨uri, huri, hback, ?_⟩, ?_⟩
  · rw [hback]
    exact congrArg Except.ok (Path.render_names names)
  · rintro other directory' ⟨names', hnames', rfl⟩ hsame
    obtain ⟨uri', huri', hback'⟩ := toPath_ofPath hnames' directory'
    rw [Path.ofText_joined hnames', huri', huri] at hsame
    rw [Except.ok.inj hsame, hback] at hback'
    rw [(Path.mk.inj (Except.ok.inj hback')).2]

/-- Names with blanks, marks of URIs, an escape, and characters of two, three and four bytes. -/
def oddNames : List String := ["a b", "%41", "x?y#z;", "...", "\x0dé", "構文", "😀"]

theorem oddNames_read_back :
    (∀ name ∈ oddNames, Path.IsName name) ∧
      ∃ uri, ofPath (Path.ofText ("/" ++ "/".intercalate oddNames)) ⟨1, ["tmp"]⟩ = .ok uri ∧
        toPath uri = .ok (Path.ofText ("/" ++ "/".intercalate oddNames)) := by
  have hnames : ∀ name ∈ oddNames, Path.IsName name := by decide
  obtain ⟨⟨uri, huri, hback, -⟩, -⟩ :=
    resolved_path_read_back ⟨1, ["tmp"]⟩ ⟨oddNames, hnames, rfl⟩
  exact ⟨hnames, uri, huri, hback⟩

end Uri

end GrammarLens
