import Mathlib
import ZealBringup.Lib.Checked
import ZealBringup.Lib.Paths
import ZealBringup.Zc.Format

/-!
# Paths of the guest

`guest_path` makes a path of the guest absolute and canonical, in three buffers of its own.

* `guestPath` — the call.  A write outside of a buffer is an end of its own.
* `reference`, `Accepts` — the path that is meant, and the paths that are accepted.
* `guestPath_eq` — the call finds the path that is meant.
* `guest_path_resolves_iff` — the paths that are also found again.
-/

namespace ZealBringup.Zc

open Hc (dot)
open Paths

def slash : UInt8 := 0x2f
def colon : UInt8 := 0x3a
def tilde : UInt8 := 0x7e

/-- No path: it is not accepted, or a write went outside of a buffer. -/
inductive Stop where
  | invalid
  | overrun
  deriving DecidableEq, Repr

/-! ## The code -/

/-- `while (n && out[n - 1] != '/') n--; if (n) n--;` -/
def dropPart (out : List UInt8) : List UInt8 := (out.reverse.dropWhile (· ≠ slash)).tail.reverse

/-- The loop of `normal_path`.  A round takes at least one character. -/
def normalLoop : ℕ → List UInt8 → List UInt8 → Except Stop (List UInt8)
  | 0, _, out => .ok out
  | rounds + 1, src, out =>
    let src := src.dropWhile (· = slash)
    let start := src.takeWhile (· ≠ slash)
    let src := src.dropWhile (· ≠ slash)
    if start = [] then .ok out
    else if start = [dot] then normalLoop rounds src out
    else if start = [dot, dot] then normalLoop rounds src (dropPart out)
    else if out.length + start.length + 2 > 128 then .error .invalid
    else
      let out := if out = [] then out else out ++ [slash]
      if out.length + start.length > 128 then .error .overrun
      else normalLoop rounds src (out ++ start)

/-- What `normal_path` writes before its NUL. -/
def normalPath (src : List UInt8) : Except Stop (List UInt8) := do
  let out ← normalLoop (src.length + 1) src []
  if out.length ≥ 128 then .error .overrun else .ok out

/-- The loop of `guest_home_suffix`. -/
def suffixLoop : ℕ → List UInt8 → Option (List UInt8) → Option (List UInt8)
  | 0, _, suffix => suffix
  | rounds + 1, path, suffix =>
    if path = [] then suffix
    else
      let part := path.dropWhile (· = slash)
      let suffix := if part.head? = some tilde ∧ (part.tail = [] ∨ part.tail.head? = some slash)
        then some part.tail else suffix
      suffixLoop rounds (part.dropWhile (· ≠ slash)) suffix

def guestHomeSuffix (path : List UInt8) : Option (List UInt8) := suffixLoop path.length path none

/-- `"disk:"` -/
def diskPrefix : List UInt8 := [0x64, 0x69, 0x73, 0x6b, colon]

/-- `"::"` and `"~:"` -/
def rootPrefixes : List (List UInt8) := [[colon, colon], [tilde, colon]]

/-- What is behind the prefix. -/
def stripPrefix (path : List UInt8) : List UInt8 :=
  let disk := diskPrefix <+: path
  let src := if disk then path.drop 5 else path
  if ¬disk ∧ (∃ t ∈ rootPrefixes, t <+: src) ∧ (src.drop 2 = [] ∨ (src.drop 2).head? = some slash) then
    if src.drop 2 = [] then [slash] else src.drop 2
  else src

/-- `joined` -/
def joinCurrent (dir src : List UInt8) : Except Stop (List UInt8) :=
  if dir.length + src.length + 2 > 256 then .error .invalid
  else if dir.length + 1 + (src.length + 1) > 256 then .error .overrun
  else .ok (dir ++ slash :: src)

/-- A path that is neither on the disk nor absolute. -/
def Relative (path : List UInt8) : Prop :=
  ¬diskPrefix <+: path ∧ (stripPrefix path).head? ≠ some slash

instance (path : List UInt8) : Decidable (Relative path) := inferInstanceAs (Decidable (_ ∧ _))

/-- `if (!disk && src[0] != '/') { ... src = joined; }` -/
def fromCurrent (dir path : List UInt8) : Except Stop (List UInt8) :=
  if Relative path then joinCurrent dir (stripPrefix path) else .ok (stripPrefix path)

/-- `expanded` -/
def expandHome (home : Option (List UInt8)) (suffix : List UInt8) : Except Stop (List UInt8) :=
  match home with
  | none => .error .invalid
  | some home =>
    if home.head? ≠ some slash ∨ colon ∈ home ∨ home.length + suffix.length + 1 > 256 then
      .error .invalid
    else if home.length + (suffix.length + 1) > 256 then .error .overrun
    else .ok (home ++ suffix)

/-- `if (suffix) { ... src = expanded; }` -/
def fromHome (home : Option (List UInt8)) (src : List UInt8) : Except Stop (List UInt8) :=
  match guestHomeSuffix src with
  | none => .ok src
  | some suffix => expandHome home suffix

/-- `guest_path` for a current directory and a home, where no text stands for a null pointer. -/
def guestPath (dir : List UInt8) (home path : Option (List UInt8)) : Except Stop (List UInt8) :=
  match path with
  | none => .error .invalid
  | some path =>
    if path = [] then .error .invalid
    else
      let src := stripPrefix path
      if src.length ≥ 128 ∨ colon ∈ src ∨ backslash ∈ src then .error .invalid
      else do
        let src ← fromCurrent dir path
        let src ← fromHome home src
        let name ← normalPath src
        let front := if diskPrefix <+: path then diskPrefix else []
        if front.length + 1 + (name.length + 1) > 134 then .error .overrun
        else .ok (front ++ slash :: name)

/-! ## The path that is meant -/

/-- `.` and `..` -/
def here : List UInt8 := [dot]
def up : List UInt8 := [dot, dot]

/-- The component that stands for the home. -/
def homePart : List UInt8 := [tilde]

/-- A component of a canonical path. -/
structure Plain (c : List UInt8) : Prop where
  isPart : IsPart slash c
  ne_here : c ≠ here
  ne_up : c ≠ up
  ne_home : c ≠ homePart
  no_colon : colon ∉ c
  no_backslash : backslash ∉ c

/-- A canonical absolute path. -/
structure CanonicalPath where
  parts : List (List UInt8)
  plain : ∀ c ∈ parts, Plain c

def CanonicalPath.text (p : CanonicalPath) : List UInt8 := slash :: join slash p.parts

/-- The source that a path names, behind the current directory if it is relative. -/
def source (dir : CanonicalPath) (path : List UInt8) : List UInt8 :=
  if Relative path then dir.text ++ slash :: stripPrefix path else stripPrefix path

/-- The components that a path names, begun again at the home behind the last `~`. -/
def namedParts (dir : CanonicalPath) (home : Option CanonicalPath) (path : List UInt8) :
    List (List UInt8) :=
  restart homePart ((home.map CanonicalPath.parts).getD []) (parts slash (source dir path))

/-- **The components of the path that is meant.** -/
def reference (dir : CanonicalPath) (home : Option CanonicalPath) (path : List UInt8) :
    List (List UInt8) :=
  resolve here up (namedParts dir home path)

/-- Each component has room where it is appended. -/
def Fits (st : List (List UInt8)) : List (List UInt8) → Prop
  | [] => True
  | c :: ps =>
    (c ≠ here → c ≠ up → (join slash st).length + c.length + 2 ≤ 128) ∧ Fits (step here up st c) ps

/-- **The paths that are accepted**: neither empty nor too long, without a colon or a backslash behind
the prefix, and with a home if they ask for it. -/
structure Accepts (dir : CanonicalPath) (home : Option CanonicalPath) (path : List UInt8) : Prop where
  ne_nil : path ≠ []
  short : (stripPrefix path).length < 128
  no_colon : colon ∉ stripPrefix path
  no_backslash : backslash ∉ stripPrefix path
  joined : Relative path → dir.text.length + (stripPrefix path).length + 2 ≤ 256
  expanded : ∀ suffix, guestHomeSuffix (source dir path) = some suffix →
    ∃ h, home = some h ∧ h.text.length + suffix.length + 1 ≤ 256
  fits : Fits [] (namedParts dir home path)

/-- The path with these components. -/
def pathText (path : List UInt8) (ps : List (List UInt8)) : List UInt8 :=
  (if diskPrefix <+: path then diskPrefix else []) ++ slash :: join slash ps

variable {dir : CanonicalPath} {home : Option CanonicalPath} {path src : List UInt8}
  {st : List (List UInt8)}

/-! ## Normal paths -/

theorem isPart_step (hst : ∀ c ∈ st, IsPart slash c) {c : List UInt8} (hc : IsPart slash c) :
    ∀ d ∈ step here up st c, IsPart slash d := by
  intro d hd
  rcases mem_step hd with hd | ⟨rfl, -⟩
  · exact hst d hd
  · exact hc

/-- **The loop of `normal_path`**, by induction on its rounds: it holds the path of the components so
far. -/
theorem normalLoop_eq {rounds : ℕ} (hst : ∀ c ∈ st, IsPart slash c) (hlen : src.length < rounds) :
    (Fits st (parts slash src) → normalLoop rounds src (join slash st) =
      .ok (join slash ((parts slash src).foldl (step here up) st))) ∧
    (¬Fits st (parts slash src) → normalLoop rounds src (join slash st) = .error .invalid) := by
  induction rounds generalizing src st with
  | zero => omega
  | succ rounds ih =>
    rw [parts_cut src, normalLoop]
    have hpartcase := @parts_cut _ _ slash src
    have hlt := @length_cut_lt _ _ slash src
    generalize (src.dropWhile (· = slash)).takeWhile (· ≠ slash) = c at hpartcase hlt ⊢
    generalize (src.dropWhile (· = slash)).dropWhile (· ≠ slash) = rest at hpartcase hlt ⊢
    by_cases hc : c = []
    · rw [if_pos hc, if_pos hc]
      exact ⟨fun _ => rfl, fun h => absurd trivial h⟩
    · rw [if_neg hc] at hpartcase
      rw [if_neg hc, if_neg hc, Fits, List.foldl_cons]
      have hpart : IsPart slash c := isPart_of_mem (hpartcase ▸ List.mem_cons_self)
      have hstep := isPart_step hst hpart
      have hih := ih hstep (show rest.length < rounds by have := hlt hc; omega)
      by_cases h1 : c = here
      · have hsame : step here up st c = st := if_pos h1
        rw [hsame] at hih ⊢
        have h1' : c = [dot] := h1
        rw [if_pos h1']
        exact ⟨fun h => hih.1 h.2, fun h => hih.2 fun h' => h ⟨fun hne => absurd h1 hne, h'⟩⟩
      · have h1' : c ≠ [dot] := h1
        rw [if_neg h1']
        by_cases h2 : c = up
        · have hdrop : step here up st c = st.dropLast := (if_neg h1).trans (if_pos h2)
          have htext : dropPart (join slash st) = join slash st.dropLast :=
            join_dropLast fun c hc => (hst c hc).2
          rw [hdrop] at hih ⊢
          have h2' : c = [dot, dot] := h2
          rw [if_pos h2', htext]
          exact ⟨fun h => hih.1 h.2, fun h => hih.2 fun h' => h ⟨fun _ hne => absurd h2 hne, h'⟩⟩
        · have hpush : step here up st c = st ++ [c] := (if_neg h1).trans (if_neg h2)
          rw [hpush] at hih ⊢
          have h2' : c ≠ [dot, dot] := h2
          rw [if_neg h2']
          by_cases hroom : (join slash st).length + c.length + 2 > 128
          · rw [if_pos hroom]
            exact ⟨fun h => absurd (h.1 h1 h2) (Nat.not_le.mpr hroom), fun _ => rfl⟩
          · have htext : (if join slash st = [] then join slash st else join slash st ++ [slash]) ++ c =
                join slash (st ++ [c]) := by
              rw [join_concat]
              by_cases hnil : st = []
              · rw [if_pos ((join_eq_nil_iff fun c hc => (hst c hc).1).mpr hnil), if_pos hnil, hnil]
                rfl
              · rw [if_neg ((join_eq_nil_iff fun c hc => (hst c hc).1).not.mpr hnil), if_neg hnil,
                  List.append_assoc]
                rfl
            have hinside : ¬(if join slash st = [] then join slash st
                else join slash st ++ [slash]).length + c.length > 128 := by
              split
              · omega
              · rw [List.length_append, List.length_singleton]
                omega
            rw [if_neg hroom]
            dsimp only
            rw [if_neg hinside, htext]
            exact ⟨fun h => hih.1 h.2,
              fun h => hih.2 fun h' => h ⟨fun _ _ => Nat.not_lt.mp hroom, h'⟩⟩

theorem join_length_of_fits {ps : List (List UInt8)} (h : Fits st ps)
    (hst : (join slash st).length < 128) :
    (join slash (ps.foldl (step here up) st)).length < 128 := by
  induction ps generalizing st with
  | nil => exact hst
  | cons c ps ih =>
    refine ih h.2 ?_
    rw [step]
    split_ifs with h1 h2
    · exact hst
    · refine Nat.lt_of_le_of_lt ?_ hst
      rcases List.eq_nil_or_concat st with rfl | ⟨init, d, rfl⟩
      · exact le_rfl
      · rw [List.concat_eq_append, List.dropLast_concat]
        exact join_length_le init [d]
    · have hroom := h.1 h1 h2
      rw [join_concat]
      split
      · omega
      · rw [List.length_append, List.length_cons]
        omega

theorem normalPath_eq (src : List UInt8) :
    (Fits [] (parts slash src) →
      normalPath src = .ok (join slash (resolve here up (parts slash src)))) ∧
    (¬Fits [] (parts slash src) → normalPath src = .error .invalid) := by
  obtain ⟨hok, hno⟩ := @normalLoop_eq src [] (src.length + 1)
    (fun c hc => absurd hc List.not_mem_nil) (Nat.lt_succ_self _)
  constructor
  · intro h
    have hlen : (join slash (resolve here up (parts slash src))).length < 128 :=
      join_length_of_fits h (by decide)
    show (normalLoop (src.length + 1) src (join slash []) >>= _) = _
    rw [hok h]
    exact if_neg (Nat.not_le.mpr hlen)
  · intro h
    show (normalLoop (src.length + 1) src (join slash []) >>= _) = _
    rw [hno h]
    rfl

/-! ## The home -/

theorem suffixLoop_nil (rounds : ℕ) (suffix : Option (List UInt8)) :
    suffixLoop rounds [] suffix = suffix := by
  cases rounds with
  | zero => rfl
  | succ rounds => exact if_pos rfl

theorem isHome_iff {c rest : List UInt8} (hc : IsPart slash c) (hrest : Behind slash rest) :
    ((c ++ rest).head? = some tilde ∧
      ((c ++ rest).tail = [] ∨ (c ++ rest).tail.head? = some slash)) ↔ c = homePart := by
  constructor
  · rintro ⟨hhead, htail⟩
    match c, hc with
    | x :: [], _ =>
      obtain rfl := Option.some.inj hhead
      rfl
    | x :: y :: c, hc =>
      rcases htail with h | h
      · cases h
      · obtain rfl := Option.some.inj h
        exact absurd (List.mem_cons_of_mem _ List.mem_cons_self) hc.2
  · rintro rfl
    exact ⟨rfl, hrest⟩

/-- **The loop of `guest_home_suffix`**, by induction on its rounds: what is behind the last `~`. -/
theorem suffixLoop_eq {rounds : ℕ} (hlen : path.length ≤ rounds) (suffix : Option (List UInt8)) :
    (lastRest homePart (parts slash path) = none → suffixLoop rounds path suffix = suffix) ∧
    ∀ r, lastRest homePart (parts slash path) = some r →
      ∃ s, suffixLoop rounds path suffix = some s ∧ parts slash s = r ∧ Behind slash s := by
  induction rounds generalizing path suffix with
  | zero =>
    rw [List.length_eq_zero_iff.mp (Nat.le_zero.mp hlen), parts_nil]
    exact ⟨fun _ => rfl, (fun _ h => by cases h)⟩
  | succ rounds ih =>
    rw [suffixLoop]
    by_cases hnil : path = []
    · rw [if_pos hnil, hnil, parts_nil]
      exact ⟨fun _ => rfl, (fun _ h => by cases h)⟩
    rw [if_neg hnil]
    dsimp only
    have hcut := @parts_cut _ _ slash path
    have hlt := @length_cut_lt _ _ slash path
    have hempty := @cut_eq_nil _ _ slash path
    generalize path.dropWhile (· = slash) = part at hcut hlt hempty ⊢
    have hsplit := List.takeWhile_append_dropWhile (p := (· ≠ slash)) (l := part)
    have hbehind := @behind_dropWhile _ _ slash part
    generalize part.takeWhile (· ≠ slash) = c at hcut hlt hempty hsplit
    generalize part.dropWhile (· ≠ slash) = rest at hcut hlt hsplit hbehind ⊢
    by_cases hc : c = []
    · rw [if_pos hc] at hcut
      have hrest : rest = [] := by
        rw [hempty hc, hc] at hsplit
        exact hsplit
      rw [hcut, hempty hc, hrest, suffixLoop_nil]
      exact ⟨fun _ => rfl, (fun _ h => by cases h)⟩
    · rw [if_neg hc] at hcut
      have hpart : IsPart slash c := isPart_of_mem (hcut ▸ List.mem_cons_self)
      have hrest : rest.length ≤ rounds := Nat.le_of_lt_succ ((hlt hc).trans_le hlen)
      obtain ⟨hnone, hsome⟩ := ih hrest (if part.head? = some tilde ∧
        (part.tail = [] ∨ part.tail.head? = some slash) then some part.tail else suffix)
      rw [hcut, lastRest]
      cases hl : lastRest homePart (parts slash rest) with
      | some r =>
        refine ⟨(fun h => by cases h), fun r' hr' => ?_⟩
        cases hr'
        exact hsome r hl
      | none =>
        rw [hnone hl, ← hsplit]
        dsimp only
        by_cases hhome : c = homePart
        · rw [if_pos ((isHome_iff hpart hbehind).mpr hhome), if_pos hhome]
          refine ⟨(fun h => by cases h), fun r' hr' => ?_⟩
          cases hr'
          refine ⟨rest, ?_, rfl, hbehind⟩
          rw [hhome]
          rfl
        · rw [if_neg ((isHome_iff hpart hbehind).not.mpr hhome), if_neg hhome]
          exact ⟨fun _ => rfl, (fun _ h => by cases h)⟩

theorem guestHomeSuffix_eq (path : List UInt8) :
    (lastRest homePart (parts slash path) = none → guestHomeSuffix path = none) ∧
    ∀ r, lastRest homePart (parts slash path) = some r →
      ∃ s, guestHomeSuffix path = some s ∧ parts slash s = r ∧ Behind slash s :=
  suffixLoop_eq le_rfl none

/-! ## The whole call -/

theorem CanonicalPath.parts_text (p : CanonicalPath) : Paths.parts slash p.text = p.parts := by
  rw [text, parts_sep, parts_join fun c hc => (p.plain c hc).isPart]

theorem CanonicalPath.no_colon (p : CanonicalPath) : colon ∉ p.text := by
  intro h
  rcases List.mem_cons.mp h with h | h
  · exact absurd h (by decide)
  · rcases mem_join h with h | ⟨c, hc, h⟩
    · exact absurd h (by decide)
    · exact (p.plain c hc).no_colon h

theorem parts_append_behind_text (p : CanonicalPath) {s : List UInt8} (hs : Behind slash s) :
    parts slash (p.text ++ s) = p.parts ++ parts slash s := by
  rcases hs with rfl | hs
  · rw [List.append_nil, p.parts_text, parts_nil, List.append_nil]
  · obtain ⟨t, rfl⟩ := List.head?_eq_some_iff.mp hs
    rw [parts_append_sep, p.parts_text, parts_sep]

theorem joinCurrent_eq (dir src : List UInt8) : joinCurrent dir src =
    if dir.length + src.length + 2 ≤ 256 then .ok (dir ++ slash :: src) else .error .invalid := by
  rw [joinCurrent]
  by_cases h : dir.length + src.length + 2 ≤ 256
  · rw [if_neg (Nat.not_lt.mpr h), if_neg (by omega), if_pos h]
  · rw [if_pos (Nat.not_le.mp h), if_neg h]

theorem expandHome_eq (p : CanonicalPath) (suffix : List UInt8) :
    expandHome (some p.text) suffix =
      if p.text.length + suffix.length + 1 ≤ 256 then .ok (p.text ++ suffix) else .error .invalid := by
  have hhead : ¬p.text.head? ≠ some slash := not_not.mpr rfl
  rw [expandHome]
  by_cases h : p.text.length + suffix.length + 1 ≤ 256
  · have hno : ¬(p.text.head? ≠ some slash ∨ colon ∈ p.text ∨
        p.text.length + suffix.length + 1 > 256) := by
      rintro (h1 | h1 | h1)
      · exact hhead h1
      · exact p.no_colon h1
      · exact Nat.not_lt.mpr h h1
    rw [if_neg hno, if_neg (by omega), if_pos h]
  · rw [if_pos (Or.inr (Or.inr (Nat.not_le.mp h))), if_neg h]

/-- **The home is put in front of what is behind the last `~`**, or there is none or it is too long. -/
theorem fromHome_eq (dir : CanonicalPath) (home : Option CanonicalPath) (path : List UInt8) :
    ((∀ suffix, guestHomeSuffix (source dir path) = some suffix →
        ∃ h, home = some h ∧ h.text.length + suffix.length + 1 ≤ 256) →
      ∃ t, fromHome (home.map CanonicalPath.text) (source dir path) = .ok t ∧
        parts slash t = namedParts dir home path) ∧
    (¬(∀ suffix, guestHomeSuffix (source dir path) = some suffix →
        ∃ h, home = some h ∧ h.text.length + suffix.length + 1 ≤ 256) →
      fromHome (home.map CanonicalPath.text) (source dir path) = .error .invalid) := by
  obtain ⟨hnone, hsome⟩ := guestHomeSuffix_eq (source dir path)
  rw [namedParts, restart, fromHome]
  cases hl : lastRest homePart (parts slash (source dir path)) with
  | none =>
    rw [hnone hl]
    exact ⟨fun _ => ⟨_, rfl, rfl⟩, fun h => absurd (fun _ hs => nomatch hs) h⟩
  | some r =>
    obtain ⟨s, hs, hparts, hbehind⟩ := hsome r hl
    rw [hs]
    cases home with
    | none =>
      refine ⟨fun h => ?_, fun _ => rfl⟩
      obtain ⟨_, hh, -⟩ := h s rfl
      cases hh
    | some p =>
      have hrun : expandHome ((some p).map CanonicalPath.text) s = _ := expandHome_eq p s
      dsimp only
      rw [hrun]
      by_cases hfit : p.text.length + s.length + 1 ≤ 256
      · rw [if_pos hfit]
        refine ⟨fun _ => ⟨_, rfl, ?_⟩, fun h => absurd ?_ h⟩
        · rw [parts_append_behind_text p hbehind, hparts]
          rfl
        · rintro _ ⟨⟩
          exact ⟨p, rfl, hfit⟩
      · rw [if_neg hfit]
        refine ⟨fun h => ?_, fun _ => rfl⟩
        obtain ⟨_, ⟨⟩, hle⟩ := h s rfl
        exact absurd hle hfit

theorem fromCurrent_eq (dir : CanonicalPath) (path : List UInt8) :
    ((Relative path → dir.text.length + (stripPrefix path).length + 2 ≤ 256) →
      fromCurrent dir.text path = .ok (source dir path)) ∧
    (¬(Relative path → dir.text.length + (stripPrefix path).length + 2 ≤ 256) →
      fromCurrent dir.text path = .error .invalid) := by
  rw [fromCurrent, source]
  by_cases hrel : Relative path
  · rw [if_pos hrel, if_pos hrel, joinCurrent_eq]
    exact ⟨fun h => if_pos (h hrel), fun h => if_neg fun hle => h fun _ => hle⟩
  · rw [if_neg hrel, if_neg hrel]
    exact ⟨fun _ => rfl, fun h => absurd (fun hr => absurd hr hrel) h⟩

/-- **`guest_path` finds the path that is meant**, if it accepts the path. -/
theorem guestPath_eq (dir : CanonicalPath) (home : Option CanonicalPath) (path : List UInt8) :
    (Accepts dir home path → guestPath dir.text (home.map CanonicalPath.text) (some path) =
      .ok (pathText path (reference dir home path))) ∧
    (¬Accepts dir home path → guestPath dir.text (home.map CanonicalPath.text) (some path) =
      .error .invalid) := by
  obtain ⟨hjoined, hnojoin⟩ := fromCurrent_eq dir path
  obtain ⟨hhome, hnohome⟩ := fromHome_eq dir home path
  rw [guestPath]
  by_cases hne : path = []
  · rw [if_pos hne]
    exact ⟨fun h => absurd hne h.ne_nil, fun _ => rfl⟩
  rw [if_neg hne]
  dsimp only
  by_cases hbad : (stripPrefix path).length ≥ 128 ∨ colon ∈ stripPrefix path ∨
      backslash ∈ stripPrefix path
  · rw [if_pos hbad]
    refine ⟨fun h => absurd hbad ?_, fun _ => rfl⟩
    exact not_or.mpr ⟨Nat.not_le.mpr h.short, not_or.mpr ⟨h.no_colon, h.no_backslash⟩⟩
  rw [if_neg hbad]
  obtain ⟨hshort, hbad⟩ := not_or.mp hbad
  obtain ⟨hcolon, hback⟩ := not_or.mp hbad
  by_cases hjoin : Relative path → dir.text.length + (stripPrefix path).length + 2 ≤ 256
  case neg =>
    rw [hnojoin hjoin]
    exact ⟨fun h => absurd h.joined hjoin, fun _ => rfl⟩
  rw [hjoined hjoin]
  by_cases hexp : ∀ suffix, guestHomeSuffix (source dir path) = some suffix →
      ∃ h, home = some h ∧ h.text.length + suffix.length + 1 ≤ 256
  case neg =>
    refine ⟨fun h => absurd h.expanded hexp, fun _ => ?_⟩
    show (fromHome _ (source dir path) >>= _) = _
    rw [hnohome hexp]
    rfl
  obtain ⟨t, ht, hparts⟩ := hhome hexp
  obtain ⟨hok, hlong⟩ := normalPath_eq t
  rw [hparts] at hok hlong
  constructor
  · intro h
    have hlen : (join slash (resolve here up (namedParts dir home path))).length < 128 :=
      join_length_of_fits h.fits (by decide)
    have hfront : (if diskPrefix <+: path then diskPrefix else []).length ≤ 5 := by
      split
      · exact le_rfl
      · exact Nat.zero_le _
    show (fromHome _ (source dir path) >>= _) = _
    rw [ht]
    show (normalPath t >>= _) = _
    rw [hok h.fits]
    exact if_neg (by omega)
  · intro h
    have hfits : ¬Fits [] (namedParts dir home path) := fun hf =>
      h ⟨hne, Nat.not_le.mp hshort, hcolon, hback, hjoin, hexp, hf⟩
    show (fromHome _ (source dir path) >>= _) = _
    rw [ht]
    show (normalPath t >>= _) = _
    rw [hlong hfits]
    rfl

/-! ## The path again -/

/-- **The components of the path that is meant** are those of a canonical path. -/
theorem plain_reference (h : Accepts dir home path) : ∀ c ∈ reference dir home path, Plain c := by
  intro c hc
  obtain ⟨hmem, hhere, hup⟩ := mem_resolve hc
  have hsource : ∀ c ∈ parts slash (source dir path), c ≠ homePart →
      IsPart slash c ∧ colon ∉ c ∧ backslash ∉ c := by
    intro c hc _
    refine ⟨isPart_of_mem hc, ?_⟩
    have hstrip : c ∈ parts slash (stripPrefix path) → colon ∉ c ∧ backslash ∉ c := fun hc =>
      ⟨fun hx => h.no_colon (mem_of_mem_parts hc hx), fun hx => h.no_backslash (mem_of_mem_parts hc hx)⟩
    rw [source] at hc
    split at hc
    · rw [parts_append_sep, dir.parts_text] at hc
      rcases List.mem_append.mp hc with hc | hc
      · exact ⟨(dir.plain c hc).no_colon, (dir.plain c hc).no_backslash⟩
      · exact hstrip hc
    · exact hstrip hc
  rw [namedParts, restart] at hmem
  cases hl : lastRest homePart (parts slash (source dir path)) with
  | none =>
    rw [hl] at hmem
    have hne : c ≠ homePart := fun heq => lastRest_eq_none.mp hl (heq ▸ hmem)
    obtain ⟨h1, h2, h3⟩ := hsource c hmem hne
    exact ⟨h1, hhere, hup, hne, h2, h3⟩
  | some r =>
    rw [hl] at hmem
    rcases List.mem_append.mp hmem with hmem | hmem
    · cases home with
      | none => exact absurd hmem List.not_mem_nil
      | some p => exact p.plain c hmem
    · obtain ⟨hno, hsub⟩ := mem_lastRest hl
      have hne : c ≠ homePart := fun heq => hno (heq ▸ hmem)
      obtain ⟨h1, h2, h3⟩ := hsource c (hsub c hmem) hne
      exact ⟨h1, hhere, hup, hne, h2, h3⟩

theorem fits_of_plain {ps : List (List UInt8)} (hps : ∀ c ∈ ps, Plain c)
    (hlen : (join slash (st ++ ps)).length ≤ 126) : Fits st ps := by
  induction ps generalizing st with
  | nil => trivial
  | cons c ps ih =>
    have hc := hps c List.mem_cons_self
    have hpush : step here up st c = st ++ [c] := (if_neg hc.ne_here).trans (if_neg hc.ne_up)
    have hrest : (join slash ((st ++ [c]) ++ ps)).length ≤ 126 := by
      rwa [List.append_assoc, List.singleton_append]
    refine ⟨fun _ _ => ?_, ?_⟩
    · have hone := (@join_length_le _ slash (st ++ [c]) ps).trans hrest
      rw [join_concat] at hone
      split at hone
      case isTrue hnil =>
        subst hnil
        have h0 : (join slash ([] : List (List UInt8))).length = 0 := rfl
        omega
      case isFalse hne =>
        rw [List.length_append, List.length_cons] at hone
        omega
    · rw [hpush]
      exact ih (fun d hd => hps d (List.mem_cons_of_mem _ hd)) hrest

section Again

variable {ps : List (List UInt8)}

theorem disk_pathText (path : List UInt8) (ps : List (List UInt8)) :
    diskPrefix <+: pathText path ps ↔ diskPrefix <+: path := by
  rw [pathText]
  split
  case isTrue h => exact iff_of_true ⟨_, rfl⟩ h
  case isFalse h =>
    refine iff_of_false ?_ h
    rintro ⟨t, ht⟩
    exact absurd (List.cons.inj ht).1 (by decide)

theorem stripPrefix_pathText (path : List UInt8) (ps : List (List UInt8)) :
    stripPrefix (pathText path ps) = slash :: join slash ps := by
  have hroot : ¬∃ t ∈ rootPrefixes, t <+: slash :: join slash ps := by
    rintro ⟨t, ht, u, hu⟩
    have hhead : ∀ t ∈ rootPrefixes, ∀ u, (t ++ u).head? ≠ some slash := by
      intro t ht u
      have hall : ∀ t ∈ rootPrefixes, t ≠ [] ∧ t.head? ≠ some slash := by decide
      rw [List.head?_append_of_ne_nil _ (hall t ht).1]
      exact (hall t ht).2
    exact hhead t ht u (by rw [hu]; rfl)
  rw [stripPrefix]
  by_cases h : diskPrefix <+: path
  · have hdrop : (pathText path ps).drop 5 = slash :: join slash ps := by
      rw [pathText, if_pos h]
      rfl
    simp only [disk_pathText, h, not_true_eq_false, false_and, if_false, if_true, hdrop]
  · have hself : pathText path ps = slash :: join slash ps := by
      rw [pathText, if_neg h]
      rfl
    have hdisk : ¬diskPrefix <+: slash :: join slash ps := hself ▸ (disk_pathText path ps).not.mpr h
    simp only [hself, hdisk, if_false, hroot, false_and, and_false]

theorem not_relative_pathText (path : List UInt8) (ps : List (List UInt8)) :
    ¬Relative (pathText path ps) := by
  rintro ⟨-, hhead⟩
  rw [stripPrefix_pathText] at hhead
  exact hhead rfl

theorem parts_source_pathText (hps : ∀ c ∈ ps, Plain c) :
    parts slash (source dir (pathText path ps)) = ps := by
  rw [source, if_neg (not_relative_pathText path ps), stripPrefix_pathText, parts_sep,
    parts_join fun c hc => (hps c hc).isPart]

theorem lastRest_plain (hps : ∀ c ∈ ps, Plain c) : lastRest homePart ps = none :=
  lastRest_eq_none.mpr fun h => (hps _ h).ne_home rfl

/-- A canonical path is meant by itself. -/
theorem reference_pathText (hps : ∀ c ∈ ps, Plain c) : reference dir home (pathText path ps) = ps := by
  rw [reference, namedParts, parts_source_pathText hps, restart, lastRest_plain hps]
  exact resolve_of_plain fun c hc => ⟨(hps c hc).ne_here, (hps c hc).ne_up⟩

/-- **A canonical path is accepted** exactly when it has fewer than 128 characters. -/
theorem accepts_pathText_iff (hps : ∀ c ∈ ps, Plain c) :
    Accepts dir home (pathText path ps) ↔ (join slash ps).length ≤ 126 := by
  constructor
  · intro h
    have hshort := h.short
    rw [stripPrefix_pathText, List.length_cons] at hshort
    omega
  · intro hlen
    have hchar : ∀ x, x ≠ slash → (∀ c ∈ ps, x ∉ c) → x ∉ stripPrefix (pathText path ps) := by
      intro x hx hno hmem
      rw [stripPrefix_pathText] at hmem
      rcases List.mem_cons.mp hmem with rfl | hmem
      · exact hx rfl
      · rcases mem_join hmem with rfl | ⟨c, hc, hmem⟩
        · exact hx rfl
        · exact hno c hc hmem
    refine ⟨?_, ?_, hchar colon (by decide) fun c hc => (hps c hc).no_colon,
      hchar backslash (by decide) fun c hc => (hps c hc).no_backslash,
      fun hrel => absurd hrel (not_relative_pathText path ps), fun suffix hsuffix => ?_, ?_⟩
    · rw [pathText]
      exact List.append_ne_nil_of_right_ne_nil _ (List.cons_ne_nil _ _)
    · rw [stripPrefix_pathText, List.length_cons]
      omega
    · rw [(guestHomeSuffix_eq _).1 (by rw [parts_source_pathText hps, lastRest_plain hps])] at hsuffix
      cases hsuffix
    · rw [namedParts, parts_source_pathText hps, restart, lastRest_plain hps]
      exact fits_of_plain hps hlen

theorem pathText_pathText (path : List UInt8) (ps qs : List (List UInt8)) :
    pathText (pathText path ps) qs = pathText path qs := by
  rw [pathText.eq_def _ qs, pathText.eq_def path qs]
  by_cases h : diskPrefix <+: path
  · rw [if_pos h, if_pos ((disk_pathText path ps).mpr h)]
  · rw [if_neg h, if_neg ((disk_pathText path ps).not.mpr h)]

end Again

/-- **What is asked of a resolution**: it stays inside its buffers, fails exactly for what is not
accepted, finds the canonical path that is meant, and finds that path again. -/
structure Resolves (dir : CanonicalPath) (home : Option CanonicalPath) (path : List UInt8) : Prop where
  inside : guestPath dir.text (home.map CanonicalPath.text) (some path) ≠ .error .overrun
  fails : guestPath dir.text (home.map CanonicalPath.text) (some path) = .error .invalid ↔
    ¬Accepts dir home path
  found : ∀ out, guestPath dir.text (home.map CanonicalPath.text) (some path) = .ok out →
    out = pathText path (reference dir home path) ∧ ∀ c ∈ reference dir home path, Plain c
  again : ∀ out, guestPath dir.text (home.map CanonicalPath.text) (some path) = .ok out →
    guestPath dir.text (home.map CanonicalPath.text) (some out) = .ok out

/-- **Path resolution** does all that is asked of it exactly when the path that is meant has fewer than
128 characters. -/
theorem guest_path_resolves_iff (dir : CanonicalPath) (home : Option CanonicalPath)
    (path : List UInt8) : Resolves dir home path ↔
      (Accepts dir home path → (slash :: join slash (reference dir home path)).length < 128) := by
  obtain ⟨hok, hno⟩ := guestPath_eq dir home path
  by_cases h : Accepts dir home path
  · have hps := plain_reference h
    obtain ⟨hok', hno'⟩ := guestPath_eq dir home (pathText path (reference dir home path))
    have haccepts := @accepts_pathText_iff dir home path (reference dir home path) hps
    rw [reference_pathText hps, pathText_pathText, haccepts] at hok'
    rw [haccepts] at hno'
    rw [List.length_cons]
    constructor
    · intro hres _
      by_contra hlong
      have hagain := hres.again _ (hok h)
      rw [hno' (by omega)] at hagain
      cases hagain
    · intro hlen
      have hlen := hlen h
      refine ⟨?_, ?_, ?_, ?_⟩
      · rw [hok h]
        exact nofun
      · rw [hok h]
        exact iff_of_false nofun (not_not.mpr h)
      · intro out hout
        rw [hok h] at hout
        cases hout
        exact ⟨rfl, hps⟩
      · intro out hout
        rw [hok h] at hout
        cases hout
        exact hok' (by omega)
  · refine iff_of_true ⟨?_, ?_, ?_, ?_⟩ fun h' => absurd h' h
    · rw [hno h]
      exact nofun
    · exact iff_of_true (hno h) h
    · intro out hout
      rw [hno h] at hout
      cases hout
    · intro out hout
      rw [hno h] at hout
      cases hout

/-- The directory `/a`. -/
def dirA : CanonicalPath where
  parts := [[0x61]]
  plain := by
    intro c hc
    obtain rfl := List.mem_singleton.mp hc
    exact ⟨⟨by decide, by decide⟩, by decide, by decide, by decide, by decide, by decide⟩

/-- In the directory `/a`, a name of 125 characters resolves to a path that is too long to be given
back. -/
theorem guest_path_not_again :
    ¬∀ (dir : CanonicalPath) (home : Option CanonicalPath) (path : List UInt8),
      Resolves dir home path := by
  intro h
  have hagain := (h dirA none (List.replicate 125 0x62)).again
    (slash :: 0x61 :: slash :: List.replicate 125 0x62) (by decide +kernel)
  revert hagain
  decide +kernel

end ZealBringup.Zc
