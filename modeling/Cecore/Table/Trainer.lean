import Cecore.Core.Digits
import Cecore.Library.CTemplate
import Cecore.Table.Types

/-!
# Trainer source

`TrainerGenerator::generateSource` of `core/trainer.cpp`: a C program made from a cheat table, line
by line. Each line is a list of pieces, code with the texts of the table between string marks or in
a comment. The conversions of floating-point text are parameters.
-/

set_option autoImplicit false
set_option relaxedAutoImplicit false

namespace Cecore.Table.Trainer

open Library.CLexer Library.CTemplate

/-! ### Texts in C -/

/-- `%02x` of a byte. -/
def hexByte (byte : ℕ) : Text := [Nat.digitChar (byte / 16), Nat.digitChar (byte % 16)]

/-- A character of a text, read as `unsigned char`. -/
def asByte (c : Char) : Char := Char.ofNat (byteOf c).toNat

/-- A character that `cString` writes as a number. -/
def HexEscaped (c : Char) : Prop :=
  c ≠ backslash ∧ c ≠ doubleQuote ∧ c ≠ '\n' ∧ c ≠ '\r' ∧ c ≠ '\t' ∧ (c.toNat < 0x20 ∨ 0x7f ≤ c.toNat)

instance (c : Char) : Decidable (HexEscaped c) := inferInstanceAs (Decidable (_ ∧ _))

/-- What `cString` writes for a byte. -/
def cStringChar (c : Char) : Text :=
  if c = backslash then [backslash, backslash]
  else if c = doubleQuote then [backslash, doubleQuote]
  else if c = '\n' then [backslash, 'n']
  else if c = '\r' then [backslash, 'r']
  else if c = '\t' then [backslash, 't']
  else if c.toNat < 0x20 ∨ 0x7f ≤ c.toNat then [backslash, 'x'] ++ hexByte c.toNat
  else [c]

def cStringBody (text : Text) : Text := (text.map asByte).flatMap cStringChar

def cString (text : Text) : Text := doubleQuote :: (cStringBody text ++ [doubleQuote])

def lineCommentText (text : Text) : Text := text.map fun c ↦ if c = '\r' ∨ c = '\n' then ' ' else c

theorem toNat_asByte (c : Char) : (asByte c).toNat = (byteOf c).toNat := by
  have hlt : (byteOf c).toNat < 256 := (byteOf c).toNat_lt
  have hvalid : (byteOf c).toNat.isValidChar := .inl (by omega)
  rw [asByte, Char.ofNat, dif_pos hvalid]
  rfl

theorem isBody_digit {d : ℕ} (hd : d < 16) {rest : Text} (h : IsBody rest) :
    IsBody (Nat.digitChar d :: rest) := by
  have hdigit : Nat.digitChar d ≠ doubleMark ∧ Nat.digitChar d ≠ backslash ∧
      Nat.digitChar d ≠ '\n' := by
    interval_cases d <;> decide
  exact .plain hdigit.1 hdigit.2.1 hdigit.2.2 h

theorem isBody_cStringChar {c : Char} (hc : c.toNat < 256) : IsBody (cStringChar c) := by
  unfold cStringChar
  split_ifs with hback hmark hnewline
  · exact .escape (by decide) .nil
  · exact .escape (by decide) .nil
  · exact .escape (by decide) .nil
  · exact .escape (by decide) .nil
  · exact .escape (by decide) .nil
  · exact .escape (by decide) (isBody_digit (by omega) (isBody_digit (by omega) .nil))
  · exact .plain hmark hback hnewline .nil

theorem isBody_cStringBody (text : Text) : IsBody (cStringBody text) := by
  induction text with
  | nil => exact .nil
  | cons c text ih =>
    have hc : (asByte c).toNat < 256 := toNat_asByte c ▸ (byteOf c).toNat_lt
    exact (isBody_cStringChar hc).append ih

theorem newline_lineCommentText (text : Text) : '\n' ∉ lineCommentText text := by
  intro hmem
  obtain ⟨c, -, hc⟩ := List.mem_map.mp hmem
  split_ifs at hc with hbreak
  · cases hc
  · exact hbreak (.inr hc)

/-- How texts of the table are written into the source. -/
def trainerText : Quoting where
  body := cStringBody
  remark := lineCommentText
  isBody := isBody_cStringBody
  newline_remark := newline_lineCommentText

/-! ### Freezing -/

/-- A floating-point type of `std::from_chars` and `std::to_chars`, with the bits of its values. -/
structure FloatFormat where
  mantissaBits : ℕ
  exponentBits : ℕ
  /-- The bits of the value, and the text behind it. -/
  fromChars : Text → Option (ℕ × Text)
  toChars : ℕ → Text
  /-- Finite values are written with digits, a point, an exponent and signs. -/
  toChars_numeral : ∀ bits, bits / 2 ^ mantissaBits % 2 ^ exponentBits ≠ 2 ^ exponentBits - 1 →
    ∀ c ∈ toChars bits, c ∈ ['0', '1', '2', '3', '4', '5', '6', '7', '8', '9', '.', 'e', '+', '-']

structure FloatFormats where
  float : FloatFormat
  double : FloatFormat

/-- `std::isfinite`. -/
def FloatFormat.isFinite (format : FloatFormat) (bits : ℕ) : Prop :=
  bits / 2 ^ format.mantissaBits % 2 ^ format.exponentBits ≠ 2 ^ format.exponentBits - 1

instance (format : FloatFormat) (bits : ℕ) : Decidable (format.isFinite bits) :=
  inferInstanceAs (Decidable (_ ≠ _))

/-- All of the text as an integer, as `strtoll` reads it up to the first NUL. -/
def fullySigned (value : Text) : Option ℤ :=
  match readInteger 0 (value.takeWhile fun c ↦ c.toNat ≠ 0) with
  | none => none
  | some (negative, magnitude, rest) =>
    let v : ℤ := if negative then -magnitude else magnitude
    if rest = [] ∧ -(2 ^ 63) ≤ v ∧ v < 2 ^ 63 then some v else none

def inRange (v low high : ℤ) : Bool := decide (low ≤ v) && decide (v ≤ high)

/-- All of the text as a finite value, commas being points. -/
def fullyFinite (format : FloatFormat) (value : Text) : Option ℕ :=
  match format.fromChars (value.map fun c ↦ if c = ',' then '.' else c) with
  | none => none
  | some (bits, rest) => if rest = [] ∧ format.isFinite bits then some bits else none

/-- The declaration of `v` and its write to the target. -/
def writeBody (type literal : Text) (address : ℕ) (size : Text) : Text :=
  type ++ " v = ".toList ++ literal ++ "; wpm((void*)0x".toList ++ hex address ++ ", &v, ".toList ++
    size ++ ");".toList

def freezeWriteBody (floats : FloatFormats) (e : CheatEntry) : Option Text :=
  if e.value = [] then none
  else match e.type with
  | .byte => (fullySigned e.value).bind fun v ↦
      if inRange v (-128) 255 then
        some (writeBody "uint8_t".toList (decimal (v % 2 ^ 8).toNat ++ ['u']) e.address ['1'])
      else none
  | .int16 => (fullySigned e.value).bind fun v ↦
      if inRange v (-32768) 65535 then
        some (writeBody "int16_t".toList (printInt (v.bmod (2 ^ 16))) e.address ['2'])
      else none
  | .int32 => (fullySigned e.value).bind fun v ↦
      if inRange v (-(2 ^ 31)) (2 ^ 32 - 1) then
        some (writeBody "int32_t".toList (printInt (v.bmod (2 ^ 32))) e.address ['4'])
      else none
  | .int64 | .pointer => (fullySigned e.value).map fun v ↦
      writeBody "int64_t".toList (printInt v ++ ['L', 'L']) e.address ['8']
  | .float => (fullyFinite floats.float e.value).map fun bits ↦
      let lit := floats.float.toChars bits
      let lit := if ∃ c ∈ lit, c = '.' ∨ c = 'e' ∨ c = 'E' then lit else lit ++ ['.', '0']
      writeBody "float".toList (lit ++ ['f']) e.address ['4']
  | .double => (fullyFinite floats.double e.value).map fun bits ↦
      writeBody "double".toList (floats.double.toChars bits) e.address ['8']
  | _ => none

/-! ### The source -/

/-- Fixed code. -/
def code (text : String) : Piece := .code text.toList

abbrev Line := List Piece

/-- The entries that have a toggle, with their places in the table. -/
def toggledEntries (table : CheatTable) : List (CheatEntry × ℕ) :=
  table.entries.zipIdx.filter fun (e, _) ↦ !e.isGroup && e.address != 0

/-- `static_cast<char>('1' + keyIdx)`. -/
def fallbackKey (keyIdx : ℕ) : Char := Char.ofNat (('1'.toNat + keyIdx) % 256)

def headerLines (table : CheatTable) : List Line := [
    [code "// Auto-generated trainer for: ", .comment table.gameName],
    [code "// Author: ", .comment table.author]]

def gnuSourceLine : Line := [code "#define _GNU_SOURCE"]

def includeLines : List Line := [
    [code "#include <stdio.h>"],
    [code "#include <stdlib.h>"],
    [code "#include <string.h>"],
    [code "#include <stdint.h>"],
    [code "#include <ctype.h>"],
    [code "#include <dirent.h>"],
    [code "#include <unistd.h>"],
    [code "#include <sys/uio.h>"],
    [code "#include <sys/select.h>"],
    [code "#include <signal.h>"],
    [code "#include <termios.h>"],
    []]

/-- The record of an entry with a script. -/
def embeddedScriptLine (e : CheatEntry) : Line :=
  [code "    \x7b", .literal e.description, code ", ", .literal e.luaScript, code ", ",
    .literal e.autoAsmScript, code "\x7d,"]

def embeddedScripts (table : CheatTable) : List CheatEntry :=
  table.entries.filter fun e ↦ !(e.luaScript.isEmpty && e.autoAsmScript.isEmpty)

def scriptLines (table : CheatTable) : List Line :=
  [[code "static int target_pid = 0;"],
    [],
    [code "static const char* embedded_table_lua = ", .literal table.luaScript, code ";"],
    [code "struct embedded_script_record \x7b const char* description; const char* lua; const char* autoasm; \x7d;"],
    [code "static const struct embedded_script_record embedded_scripts[] = \x7b"]] ++
  (embeddedScripts table).map embeddedScriptLine ++
  [[code "\x7d;"],
    [code "static const int embedded_script_count = sizeof(embedded_scripts) / sizeof(embedded_scripts[0]);"],
    []]

def helperLines : List Line := [
    [code "static int is_numeric_name(const char* s) \x7b"],
    [code "    if (!s || !*s) return 0;"],
    [code "    while (*s) \x7b if (!isdigit((unsigned char)*s++)) return 0; \x7d"],
    [code "    return 1;"],
    [code "\x7d"],
    [],
    [code "static int find_process_by_name(const char* name) \x7b"],
    [code "    DIR* dir = opendir(\"/proc\");"],
    [code "    if (!dir) return 0;"],
    [code "    struct dirent* ent;"],
    [code "    while ((ent = readdir(dir)) != NULL) \x7b"],
    [code "        if (!is_numeric_name(ent->d_name)) continue;"],
    [code "        char path[256];"],
    [code "        snprintf(path, sizeof(path), \"/proc/%s/comm\", ent->d_name);"],
    [code "        FILE* f = fopen(path, \"r\");"],
    [code "        if (!f) continue;"],
    [code "        char comm[256] = \x7b0\x7d;"],
    [code "        if (fgets(comm, sizeof(comm), f)) \x7b"],
    [code "            comm[strcspn(comm, \"\\r\\n\")] = 0;"],
    [code "            if (strcmp(comm, name) == 0) \x7b"],
    [code "                fclose(f);"],
    [code "                closedir(dir);"],
    [code "                return atoi(ent->d_name);"],
    [code "            \x7d"],
    [code "        \x7d"],
    [code "        fclose(f);"],
    [code "    \x7d"],
    [code "    closedir(dir);"],
    [code "    return 0;"],
    [code "\x7d"],
    [],
    [code "static int hotkey_matches(int c, const char* spec, int fallback) \x7b"],
    [code "    if (!spec || !*spec) return c == fallback;"],
    [code "    if (strlen(spec) == 1) return tolower((unsigned char)c) == tolower((unsigned char)spec[0]);"],
    [code "    if (strncmp(spec, \"Ctrl+\", 5) == 0 && spec[5] && !spec[6]) \x7b"],
    [code "        return c == (tolower((unsigned char)spec[5]) & 0x1f);"],
    [code "    \x7d"],
    [code "    if (strncmp(spec, \"Shift+\", 6) == 0 && spec[6] && !spec[7]) \x7b"],
    [code "        return c == toupper((unsigned char)spec[6]);"],
    [code "    \x7d"],
    [code "    return c == fallback;"],
    [code "\x7d"],
    [],
    [code "static int rpm(void* addr, void* buf, size_t sz) \x7b"],
    [code "    struct iovec l = \x7bbuf, sz\x7d, r = \x7baddr, sz\x7d;"],
    [code "    return process_vm_readv(target_pid, &l, 1, &r, 1, 0) >= 0;"],
    [code "\x7d"],
    [],
    [code "static int wpm(void* addr, void* buf, size_t sz) \x7b"],
    [code "    struct iovec l = \x7bbuf, sz\x7d, r = \x7baddr, sz\x7d;"],
    [code "    return process_vm_writev(target_pid, &l, 1, &r, 1, 0) >= 0;"],
    [code "\x7d"],
    []]

def toggleLines (i : ℕ) : List Line := [
    [code "static int cheat_", .code (decimal i), code "_enabled = 0;"],
    [code "static void toggle_cheat_", .code (decimal i), code "() \x7b"],
    [code "    cheat_", .code (decimal i), code "_enabled = !cheat_", .code (decimal i),
      code "_enabled;"],
    [code "\x7d"],
    []]

/-- The key in the list of cheats; the literal of the fallback key belongs to the code. -/
def hotkeyText (e : CheatEntry) (keyIdx : ℕ) : Piece :=
  if e.hotkeyKeys = [] then .code (cString [fallbackKey keyIdx]) else .literal e.hotkeyKeys

def cheatLine (e : CheatEntry) (i keyIdx : ℕ) : Line :=
  [code "    printf(\"  [%c] %-12s %s\\n\", cheat_", .code (decimal i), code "_enabled ? ",
    .character 'x', code " : ", .character ' ', code ", ", hotkeyText e keyIdx, code ", ",
    .literal e.description, code ");"]

def uiLines (table : CheatTable) : List Line :=
  [[code "static void print_trainer_ui() \x7b"],
    [code "    printf(\"\\033[2J\\033[H\");"],
    [code "    printf(\"Trainer for: %s\\n\", ", .literal table.gameName, code ");"],
    [code "    printf(\"Target PID: %d\\n\\n\", target_pid);"],
    [code "    if (*embedded_table_lua || embedded_script_count > 0) \x7b"],
    [code "        printf(\"Embedded scripts: table=%s entries=%d\\n\\n\", *embedded_table_lua ? \"yes\" : \"no\", embedded_script_count);"],
    [code "    \x7d"],
    [code "    printf(\"Cheats:\\n\");"]] ++
  ((toggledEntries table).zipIdx.map fun ((e, i), keyIdx) ↦ cheatLine e i keyIdx) ++
  [[code "    printf(\"\\nPress listed hotkeys to toggle. Ctrl+C to exit.\\n\");"],
    [code "    fflush(stdout);"],
    [code "\x7d"],
    []]

def freezeEntryLines (floats : FloatFormats) (e : CheatEntry) (i : ℕ) : List Line :=
  if e.value.isEmpty then []
  else match freezeWriteBody floats e with
  | none => []
  | some body => [
      [code "        if (cheat_", .code (decimal i), code "_enabled) \x7b"],
      [code "            ", .code body],
      [code "        \x7d"]]

/-- The freezing writes, which stand in two loops. -/
def freezeEntries (floats : FloatFormats) (table : CheatTable) : List Line :=
  (toggledEntries table).flatMap fun (e, i) ↦ freezeEntryLines floats e i

def freezeLines (floats : FloatFormats) (table : CheatTable) : List Line :=
  [[code "static volatile int running = 1;"],
    [code "static void sighandler(int s) \x7b running = 0; \x7d"],
    [],
    [code "static void freeze_loop() \x7b"],
    [code "    while (running) \x7b"]] ++
  freezeEntries floats table ++
  [[code "        usleep(100000);"],
    [code "    \x7d"],
    [code "\x7d"],
    []]

def hotkeyLine (e : CheatEntry) (i keyIdx : ℕ) : Line :=
  [code "            if (hotkey_matches((unsigned char)c, ", .literal e.hotkeyKeys, code ", ",
    .character (fallbackKey keyIdx), code ")) \x7b toggle_cheat_", .code (decimal i),
    code "(); print_trainer_ui(); \x7d"]

def mainLines (floats : FloatFormats) (table : CheatTable) : List Line :=
  [[code "int main(int argc, char** argv) \x7b"],
    [code "    if (argc >= 2) target_pid = atoi(argv[1]);"],
    [code "    else target_pid = find_process_by_name(", .literal table.gameName, code ");"],
    [code "    if (target_pid <= 0) \x7b"],
    [code "        printf(\"Usage: %s <pid>\\n\", argv[0]);"],
    [code "        printf(\"Auto-detection did not find process: %s\\n\", ", .literal table.gameName,
      code ");"],
    [code "        return 1;"],
    [code "    \x7d"],
    [code "    signal(SIGINT, sighandler);"],
    [code "    // Non-blocking terminal input"],
    [code "    struct termios oldt, newt;"],
    [code "    tcgetattr(0, &oldt);"],
    [code "    newt = oldt;"],
    [code "    newt.c_lflag &= ~(ICANON | ECHO);"],
    [code "    tcsetattr(0, TCSANOW, &newt);"],
    [],
    [code "    print_trainer_ui();"],
    [],
    [code "    while (running) \x7b"],
    [code "        fd_set fds; FD_ZERO(&fds); FD_SET(0, &fds);"],
    [code "        struct timeval tv = \x7b0, 100000\x7d;"],
    [code "        if (select(1, &fds, NULL, NULL, &tv) > 0) \x7b"],
    [code "            char c = getchar();"]] ++
  ((toggledEntries table).zipIdx.map fun ((e, i), keyIdx) ↦ hotkeyLine e i keyIdx) ++
  [[code "        \x7d"],
    [code "        // Freeze active cheats"]] ++
  freezeEntries floats table ++
  [[code "    \x7d"],
    [],
    [code "    tcsetattr(0, TCSANOW, &oldt);"],
    [code "    printf(\"\\nTrainer exited.\\n\");"],
    [code "    return 0;"],
    [code "\x7d"]]

/-- The lines behind `#define _GNU_SOURCE`. -/
def programLines (floats : FloatFormats) (table : CheatTable) : List Line :=
  includeLines ++ scriptLines table ++ helperLines ++
    ((toggledEntries table).flatMap fun (_, i) ↦ toggleLines i) ++ uiLines table ++
    freezeLines floats table ++ mainLines floats table

def sourceLines (floats : FloatFormats) (table : CheatTable) : List Line :=
  headerLines table ++ gnuSourceLine :: programLines floats table

def generateSource (floats : FloatFormats) (table : CheatTable) : Text :=
  trainerText.source (sourceLines floats table)

end Cecore.Table.Trainer
