import Milpa.Core.GitTree

/-!
# Relative URLs of submodules

`resolve_submodule_url` of `fetchers.rs`, beside the `relative_url` of git that it is meant
to mirror. Git goes up from the URL of the superproject itself, and keeps what is left of
it; the code goes up from the directory of that URL, and brings what it gets into a normal
form. Where the directory is in normal form and has as many levels as the relative URL goes
up, the code does what git does for a superproject at that directory
(`resolveSubmoduleUrl_eq`).
-/

namespace Milpa.Core.Git

open Str

/-! ### What git does -/

/-- A URL that git resolves: it begins with `./` or `../`. -/
def isRelativeUrl (url : Str) : Bool := (url.stripPrefix "./").isSome || (url.stripPrefix "../").isSome

/-- How far a URL goes up by the `../`s that it begins with, and what is left; a `./` is dropped. -/
def climbs : Str → ℕ × Str
  | '.' :: '.' :: '/' :: rest => ((climbs rest).1 + 1, (climbs rest).2)
  | '.' :: '/' :: rest => climbs rest
  | rest => (0, rest)

/-- `url_is_local_not_ssh`: no colon before the first slash. -/
def isLocalUrl (remote : Str) : Bool := decide (':' ∉ remote.takeWhile fun c => decide (c ≠ '/'))

/-- `chop_last_dir`; a colon that was reached stays the separator. -/
def chopLastDir (relative : Bool) (remote : Str × Bool) : Option (Str × Bool) :=
  match remote.1.rsplitOnce '/' with
  | some (dir, _) => some (dir, remote.2)
  | none =>
    match remote.1.rsplitOnce ':' with
    | some (host, _) => some (host, true)
    | none => if relative || decide (remote.1 = ".".toList) then none else some (".".toList, remote.2)

/-- `chop_last_dir`, so many times. -/
def chopDirs (relative : Bool) : ℕ → Str × Bool → Option (Str × Bool)
  | 0, remote => some remote
  | k + 1, remote => (chopLastDir relative remote).bind (chopDirs relative k)

/-- The URL of the superproject as git begins with it: without a slash at the end, and with `./` before a path from here. -/
def remoteStart (remote : Str) : Bool × Str :=
  let stem := (remote.stripSuffix "/").getD remote
  let relative := isLocalUrl stem && decide (stem.head? ≠ some '/')
  (relative, if relative && !isRelativeUrl stem then "./".toList ++ stem else stem)

/-- `relative_url`; `none` where git dies since it cannot strip one component off. -/
def gitRelativeUrl (remote url : Str) : Option Str :=
  let (relative, start) := remoteStart remote
  (chopDirs relative (climbs url).1 (start, false)).map fun (dir, colon) =>
    let rest := (climbs url).2
    let out := dir ++ (if colon then ':' else '/') :: (rest.stripSuffix "/").getD rest
    (out.stripPrefix "./").getD out

/-- The URL that git uses for a submodule. -/
def gitSubmoduleUrl (url remote : Str) : Option Str := if isRelativeUrl url then gitRelativeUrl remote url else some url

/-! ### Segments -/

/-- A segment that a normal form keeps. -/
structure PlainSegment (s : Str) : Prop where
  nonempty : s ≠ []
  notHere : s ≠ ".".toList
  notUp : s ≠ "..".toList
  noSlash : '/' ∉ s

instance (s : Str) : Decidable (PlainSegment s) :=
  decidable_of_iff (s ≠ [] ∧ s ≠ ".".toList ∧ s ≠ "..".toList ∧ '/' ∉ s)
    ⟨fun ⟨hne, hhere, hup, hslash⟩ => ⟨hne, hhere, hup, hslash⟩, fun ⟨hne, hhere, hup, hslash⟩ => ⟨hne, hhere, hup, hslash⟩⟩

/-- Segments, each after a slash. -/
def slashed (segs : List Str) : Str := segs.flatMap fun s => '/' :: s

@[simp] theorem slashed_nil : slashed [] = [] := rfl

@[simp] theorem slashed_cons (s : Str) (segs : List Str) : slashed (s :: segs) = '/' :: s ++ slashed segs := rfl

@[simp] theorem slashed_append (segs segs' : List Str) : slashed (segs ++ segs') = slashed segs ++ slashed segs' := List.flatMap_append

/-- Segments between slashes. -/
theorem slashed_eq {segs : List Str} (h : segs ≠ []) : slashed segs = '/' :: ['/'].intercalate segs := by
  cases segs with
  | nil => exact absurd rfl h
  | cons s segs =>
    clear h
    induction segs generalizing s with
    | nil => simp
    | cons s' segs ih => rw [slashed_cons, ih s', List.intercalate_cons_cons]; simp

/-- The segments of a text that was put together from them. -/
theorem split_slashed {first : Str} (hfirst : '/' ∉ first) {segs : List Str} (hsegs : ∀ s ∈ segs, '/' ∉ s) (tail : Str) :
    Str.split (first ++ slashed segs ++ '/' :: tail) '/' = first :: segs ++ Str.split tail '/' := by
  induction segs generalizing first with
  | nil =>
    rw [slashed_nil, List.append_nil]
    exact List.splitOn_append_cons_self_of_not_mem hfirst tail
  | cons s segs ih =>
    obtain ⟨hs, hsegs⟩ := List.forall_mem_cons.mp hsegs
    have htext : first ++ slashed (s :: segs) ++ '/' :: tail = first ++ '/' :: (s ++ slashed segs ++ '/' :: tail) := by simp
    rw [htext, Str.split, List.splitOn_append_cons_self_of_not_mem hfirst]
    exact congrArg (first :: ·) (ih hs hsegs)

/-- Plain segments are kept. -/
theorem foldl_urlSegment {segs : List Str} (h : ∀ s ∈ segs, PlainSegment s) (acc : List Str) :
    segs.foldl urlSegment acc = acc ++ segs := by
  induction segs generalizing acc with
  | nil => exact (List.append_nil acc).symm
  | cons s segs ih =>
    obtain ⟨hs, hsegs⟩ := List.forall_mem_cons.mp h
    have hstep : urlSegment acc s = acc ++ [s] := by
      rw [urlSegment, if_neg (not_or.mpr ⟨hs.nonempty, hs.notHere⟩), if_neg hs.notUp]
    rw [List.foldl_cons, hstep, ih hsegs, List.append_assoc, List.singleton_append]

/-- A relative URL goes up as many segments as it says, before what is left of it. -/
theorem foldl_climbs (url : Str) (acc : List Str) :
    (Str.split url '/').foldl urlSegment acc =
      (Str.split (climbs url).2 '/').foldl urlSegment (acc.take (acc.length - (climbs url).1)) := by
  induction url using climbs.induct generalizing acc with
  | case1 rest ih =>
    have hsplit : Str.split ('.' :: '.' :: '/' :: rest) '/' = "..".toList :: Str.split rest '/' :=
      List.splitOn_append_cons_self_of_not_mem (by decide : '/' ∉ "..".toList) rest
    have hstep : urlSegment acc "..".toList = acc.dropLast := by
      rw [urlSegment, if_neg (by decide), if_pos rfl]
    rw [hsplit, List.foldl_cons, hstep, ih, climbs, List.dropLast_eq_take, List.take_take, List.length_take]
    congr 2
    omega
  | case2 rest ih =>
    have hsplit : Str.split ('.' :: '/' :: rest) '/' = ".".toList :: Str.split rest '/' :=
      List.splitOn_append_cons_self_of_not_mem (by decide : '/' ∉ ".".toList) rest
    have hstep : urlSegment acc ".".toList = acc := by rw [urlSegment, if_pos (.inr rfl)]
    rw [hsplit, List.foldl_cons, hstep, ih, climbs]
  | case3 url _ _ => rw [climbs] <;> simp_all

/-! ### A superproject with a slash at the end -/

/-- What a URL begins with: a scheme and a host, the root, a host and a colon, or nothing. -/
inductive UrlKind where
  | scheme (name host : Str)
  | rooted
  | scp (host : Str)
  | relative

namespace UrlKind

/-- A URL of a kind, with its segments. -/
def render : UrlKind → List Str → Str
  | .scheme name host, segs => name ++ ("://".toList ++ host) ++ slashed segs
  | rooted, segs => slashed segs
  | scp host, segs => host ++ slashed segs
  | relative, segs => ['/'].intercalate segs

/-- What stands before the segments where git goes up. -/
def head : UrlKind → Str
  | .scheme name host => name ++ ("://".toList ++ host)
  | rooted => []
  | scp host => host
  | relative => ".".toList

/-- A URL is of its kind. -/
def Fits : UrlKind → List Str → Prop
  | .scheme name host, _ => ':' ∉ name ∧ '/' ∉ name ∧ '/' ∉ host
  | rooted, segs => segs ≠ []
  | scp host, _ => ':' ∈ host ∧ '/' ∉ host
  | relative, segs => ∃ first rest, segs = first :: rest ∧ ':' ∉ first

end UrlKind

variable {kind : UrlKind} {segs init removed restSegs : List Str} {url : Str}

/-- What stands before the first slash. -/
theorem takeWhile_slash {first : Str} (h : '/' ∉ first) (rest : Str) :
    (first ++ '/' :: rest).takeWhile (fun c => decide (c ≠ '/')) = first := by
  rw [List.takeWhile_append_of_pos fun c hc => by simpa using ne_of_mem_of_not_mem hc h, List.takeWhile_cons_of_neg (by simp),
    List.append_nil]

theorem takeWhile_slashed {first : Str} (h : '/' ∉ first) (segs : List Str) :
    (first ++ slashed segs).takeWhile (fun c => decide (c ≠ '/')) = first := by
  cases segs with
  | nil =>
    rw [slashed_nil, List.append_nil]
    exact List.takeWhile_eq_self_iff.mpr fun c hc => by simpa using ne_of_mem_of_not_mem hc h
  | cons s segs => exact takeWhile_slash h _

theorem takeWhile_scheme {scheme : Str} (h : '/' ∉ scheme) (rest : Str) :
    (scheme ++ ("://".toList ++ rest)).takeWhile (fun c => decide (c ≠ '/')) = scheme ++ [':'] := by
  have htext : scheme ++ ("://".toList ++ rest) = scheme ++ [':'] ++ '/' :: '/' :: rest := by simp
  rw [htext]
  exact takeWhile_slash (by simpa using h) _

/-- A text whose first segment is neither `.` nor `..` is not relative. -/
theorem not_isRelativeUrl {text : Str} (hhere : text.takeWhile (fun c => decide (c ≠ '/')) ≠ ".".toList)
    (hup : text.takeWhile (fun c => decide (c ≠ '/')) ≠ "..".toList) : isRelativeUrl text = false := by
  rw [isRelativeUrl, Bool.or_eq_false_iff, Option.isSome_eq_false_iff, Option.isSome_eq_false_iff, Option.isNone_iff_eq_none,
    Option.isNone_iff_eq_none]
  refine ⟨Option.eq_none_iff_forall_ne_some.mpr fun r hr => hhere ?_, Option.eq_none_iff_forall_ne_some.mpr fun r hr => hup ?_⟩
  · rw [stripPrefix_eq_some.mp hr]
    exact takeWhile_slash (by decide : '/' ∉ ".".toList) r
  · rw [stripPrefix_eq_some.mp hr]
    exact takeWhile_slash (by decide : '/' ∉ "..".toList) r

theorem intercalate_cons_eq (first : Str) (segs : List Str) : ['/'].intercalate (first :: segs) = first ++ slashed segs := by
  have h := slashed_eq (List.cons_ne_nil first segs)
  rw [slashed_cons] at h
  exact (List.cons.inj h).2.symm

theorem stripSuffix_slash (stem : Str) : (stripSuffix (stem ++ "/".toList) "/").getD (stem ++ "/".toList) = stem := by
  rw [stripSuffix_eq_some.mpr rfl]
  rfl

/-- Where git begins. -/
theorem remoteStart_render (hfits : kind.Fits segs) (hsegs : ∀ s ∈ segs, PlainSegment s) :
    (remoteStart (kind.render segs ++ "/".toList)).2 = kind.head ++ slashed segs := by
  rw [remoteStart, stripSuffix_slash]
  dsimp only
  cases kind with
  | scheme scheme host =>
    have hlocal : isLocalUrl (UrlKind.render (.scheme scheme host) segs) = false := by
      rw [isLocalUrl, UrlKind.render, List.append_assoc, List.append_assoc, takeWhile_scheme hfits.2.1]
      simp
    rw [hlocal]
    rfl
  | rooted =>
    obtain ⟨s, segs, rfl⟩ := List.exists_cons_of_ne_nil hfits
    have hhead : (UrlKind.render .rooted (s :: segs)).head? = some '/' := rfl
    rw [hhead]
    simp [UrlKind.render, UrlKind.head]
  | scp host =>
    have hlocal : isLocalUrl (UrlKind.render (.scp host) segs) = false := by
      rw [isLocalUrl, UrlKind.render, takeWhile_slashed hfits.2]
      simpa using hfits.1
    rw [hlocal]
    rfl
  | relative =>
    obtain ⟨first, rest, rfl, hcolon⟩ := hfits
    have hfirst := hsegs first List.mem_cons_self
    have hrender : UrlKind.render .relative (first :: rest) = first ++ slashed rest := intercalate_cons_eq first rest
    have hlocal : isLocalUrl (first ++ slashed rest) = true := by
      rw [isLocalUrl, takeWhile_slashed hfirst.noSlash]
      simpa using hcolon
    have hhead : (first ++ slashed rest).head? ≠ some '/' := by
      obtain ⟨c, cs, rfl⟩ := List.exists_cons_of_ne_nil hfirst.nonempty
      intro h
      cases h
      exact hfirst.noSlash List.mem_cons_self
    have hrel : isRelativeUrl (first ++ slashed rest) = false := by
      refine not_isRelativeUrl ?_ ?_
      · rw [takeWhile_slashed hfirst.noSlash]
        exact hfirst.notHere
      · rw [takeWhile_slashed hfirst.noSlash]
        exact hfirst.notUp
    rw [hrender, hlocal, hrel, decide_eq_true hhead]
    rfl

/-- Git takes segments away from the end. -/
theorem chopDirs_slashed {relative : Bool} (head : Str) (init : List Str) (hremoved : ∀ s ∈ removed, '/' ∉ s) (colon : Bool) :
    chopDirs relative removed.length (head ++ slashed (init ++ removed), colon) = some (head ++ slashed init, colon) := by
  induction removed using List.reverseRecOn with
  | nil => rw [List.append_nil]; rfl
  | append_singleton removed s ih =>
    have hlast : Str.rsplitOnce (head ++ slashed (init ++ (removed ++ [s]))) '/' = some (head ++ slashed (init ++ removed), s) :=
      rsplitOnce_eq_some.mpr ⟨by simp, hremoved s (by simp)⟩
    rw [List.length_append, List.length_singleton, chopDirs, chopLastDir, hlast]
    exact ih fun s hs => hremoved s (List.mem_append_left _ hs)

/-- What is left of a URL that goes up: plain segments, and perhaps a slash. -/
structure PlainRest (rest : Str) (segs : List Str) : Prop where
  nonempty : segs ≠ []
  plain : ∀ s ∈ segs, PlainSegment s
  text : rest = ['/'].intercalate segs ∨ rest = ['/'].intercalate segs ++ "/".toList

theorem split_intercalate (hne : segs ≠ []) (hsegs : ∀ s ∈ segs, PlainSegment s) : Str.split (['/'].intercalate segs) '/' = segs :=
  List.splitOn_intercalate '/' (fun s hs => (hsegs s hs).noSlash) hne

theorem PlainRest.strip {rest : Str} (h : PlainRest rest restSegs) : (rest.stripSuffix "/").getD rest = ['/'].intercalate restSegs := by
  rcases h.text with rfl | rfl
  · cases hs : Str.stripSuffix (['/'].intercalate restSegs) "/" with
    | none => rfl
    | some r =>
      -- a slash at the end would leave an empty segment
      have hsplit := split_intercalate h.nonempty h.plain
      rw [stripSuffix_eq_some.mp hs] at hsplit
      have hempty : ([] : Str) ∈ restSegs := by
        rw [← hsplit, Str.split, show ("/" : String).toList = '/' :: [] from rfl, List.splitOn_append_cons_self]
        simp
      exact absurd rfl (h.plain [] hempty).nonempty
  · exact stripSuffix_slash _

/-- What git makes of it. -/
theorem gitRelativeUrl_render (hfits : kind.Fits (init ++ removed)) (hsegs : ∀ s ∈ init ++ removed, PlainSegment s)
    (hclimbs : (climbs url).1 = removed.length) (hrest : PlainRest (climbs url).2 restSegs) :
    gitRelativeUrl (kind.render (init ++ removed) ++ "/".toList) url = some (kind.render (init ++ restSegs)) := by
  have hstart := remoteStart_render hfits hsegs
  have hchopped : ∀ relative, chopDirs relative removed.length (kind.head ++ slashed (init ++ removed), false) =
      some (kind.head ++ slashed init, false) := fun relative =>
    chopDirs_slashed kind.head init (fun s hs => (hsegs s (List.mem_append_right _ hs)).noSlash) false
  rw [gitRelativeUrl]
  dsimp only
  rw [hstart, hclimbs, hchopped]
  dsimp only [Option.map_some]
  rw [hrest.strip]
  have hout : kind.head ++ slashed init ++ '/' :: ['/'].intercalate restSegs = kind.head ++ slashed (init ++ restSegs) := by
    rw [← slashed_eq hrest.nonempty, slashed_append, List.append_assoc]
  have hne : init ++ restSegs ≠ [] := by simp [hrest.nonempty]
  rw [if_neg Bool.false_ne_true, hout]
  congr 1
  -- only a path from here begins with `./`
  have hkeep : (kind.head ++ slashed (init ++ restSegs)).takeWhile (fun c => decide (c ≠ '/')) ≠ ".".toList →
      (Str.stripPrefix (kind.head ++ slashed (init ++ restSegs)) "./").getD (kind.head ++ slashed (init ++ restSegs)) =
        kind.head ++ slashed (init ++ restSegs) := by
    intro hfirst
    cases hs : Str.stripPrefix (kind.head ++ slashed (init ++ restSegs)) "./" with
    | none => rfl
    | some r =>
      refine absurd ?_ hfirst
      rw [stripPrefix_eq_some.mp hs]
      exact takeWhile_slash (by decide : '/' ∉ ".".toList) r
  cases kind with
  | scheme scheme host =>
    refine hkeep ?_
    rw [UrlKind.head, List.append_assoc, List.append_assoc, takeWhile_scheme hfits.2.1]
    intro h
    have hcolon : ':' ∈ ".".toList := h ▸ (by simp)
    exact absurd hcolon (by decide)
  | rooted =>
    refine hkeep ?_
    rw [UrlKind.head, takeWhile_slashed List.not_mem_nil]
    decide
  | scp host =>
    refine hkeep ?_
    rw [UrlKind.head, takeWhile_slashed hfits.2]
    intro h
    exact absurd (h ▸ hfits.1) (by decide)
  | relative =>
    have htext : UrlKind.head .relative ++ slashed (init ++ restSegs) = "./".toList ++ ['/'].intercalate (init ++ restSegs) := by
      rw [slashed_eq hne]
      rfl
    rw [htext, stripPrefix_eq_some.mpr rfl]
    rfl

/-! ### What the code does -/

theorem splitOnceStr_scheme {name : Str} (h : ':' ∉ name) (rest : Str) :
    Str.splitOnceStr (name ++ ("://".toList ++ rest)) "://" = some (name, rest) := by
  induction name with
  | nil =>
    rw [List.nil_append, show "://".toList ++ rest = ':' :: '/' :: '/' :: rest from rfl, splitOnceStr]
    rfl
  | cons c name ih =>
    obtain ⟨hc, hname⟩ := not_or.mp fun hmem => h (List.mem_cons.mpr hmem)
    have hnone : Str.stripPrefix (c :: (name ++ ("://".toList ++ rest))) "://" = none := by
      refine Option.eq_none_iff_forall_ne_some.mpr fun r hr => hc ?_
      exact (List.cons.inj (stripPrefix_eq_some.mp hr)).1.symm
    rw [List.cons_append, splitOnceStr, hnone, ih hname]
    rfl

/-- Plain segments have no empty one between them, as `://` would leave it. -/
theorem splitOnceStr_slashed {first : Str} (hfirst : '/' ∉ first) (hsegs : ∀ s ∈ segs, PlainSegment s) :
    Str.splitOnceStr (first ++ slashed segs) "://" = none := by
  refine splitOnceStr_eq_none.mpr fun a b hab => ?_
  have hsplit : List.splitOn '/' (first ++ slashed segs) = first :: segs := by
    cases segs with
    | nil => simpa using List.splitOn_eq_singleton hfirst
    | cons s segs =>
      have hmem : ∀ t ∈ first :: s :: segs, '/' ∉ t :=
        List.forall_mem_cons.mpr ⟨hfirst, fun t ht => (hsegs t ht).noSlash⟩
      have h := List.splitOn_intercalate '/' hmem (List.cons_ne_nil _ _)
      rwa [intercalate_cons_eq] at h
  have htext : first ++ slashed segs = (a ++ ":".toList) ++ '/' :: ([] ++ '/' :: b) := by
    rw [hab]
    simp
  rw [htext, List.splitOn_append_cons_self, List.splitOn_append_cons_self, List.splitOn_nil] at hsplit
  obtain ⟨t, ts, ht⟩ := List.exists_cons_of_ne_nil (List.splitOn_ne_nil '/' (a ++ ":".toList))
  rw [ht, List.cons_append] at hsplit
  have hempty : ([] : Str) ∈ segs := by
    rw [← (List.cons.inj hsplit).2]
    simp
  exact (hsegs [] hempty).nonempty rfl

/-- A text that ends with plain segments ends with no slash. -/
theorem exists_last {first : Str} (hfirst : PlainSegment first) (hsegs : ∀ s ∈ segs, PlainSegment s) :
    ∃ cs c, first ++ slashed segs = cs ++ [c] ∧ c ≠ '/' := by
  have hlast : ∀ {s : Str}, PlainSegment s → ∃ cs c, s = cs ++ [c] ∧ c ≠ '/' := by
    intro s hs
    obtain ⟨cs, c, rfl⟩ := (List.eq_nil_or_concat s).resolve_left hs.nonempty
    exact ⟨cs, c, List.concat_eq_append, fun h => hs.noSlash (by simp [h])⟩
  rcases List.eq_nil_or_concat segs with rfl | ⟨init, s, rfl⟩
  · simpa using hlast hfirst
  · obtain ⟨cs, c, rfl, hc⟩ := hlast (hsegs s (by simp))
    exact ⟨first ++ (slashed init ++ '/' :: cs), c, by simp, hc⟩

theorem rdropWhile_first {first : Str} (hfirst : PlainSegment first) (hsegs : ∀ s ∈ segs, PlainSegment s) :
    (first ++ slashed segs).rdropWhile (· = '/') = first ++ slashed segs := by
  obtain ⟨cs, c, htext, hc⟩ := exists_last hfirst hsegs
  rw [htext, List.rdropWhile_concat_neg _ _ _ (by simpa using hc)]

theorem rdropWhile_slashed (hsegs : ∀ s ∈ segs, PlainSegment s) : (slashed segs).rdropWhile (· = '/') = slashed segs := by
  cases segs with
  | nil => rfl
  | cons s segs =>
    obtain ⟨hs, hsegs⟩ := List.forall_mem_cons.mp hsegs
    obtain ⟨cs, c, htext, hc⟩ := exists_last hs hsegs
    have hcons : slashed (s :: segs) = ('/' :: cs) ++ [c] := by rw [slashed_cons, List.cons_append, htext, List.cons_append]
    rw [hcons, List.rdropWhile_concat_neg _ _ _ (by simpa using hc)]

theorem foldl_rest {rest : Str} (h : PlainRest rest restSegs) (acc : List Str) :
    (Str.split rest '/').foldl urlSegment acc = acc ++ restSegs := by
  have hsplit := split_intercalate h.nonempty h.plain
  rcases h.text with rfl | rfl
  · rw [hsplit, foldl_urlSegment h.plain]
  · have hlast : Str.split (['/'].intercalate restSegs ++ "/".toList) '/' = restSegs ++ [[]] := by
      rw [Str.split, show "/".toList = '/' :: [] from rfl, List.splitOn_append_cons_self, List.splitOn_nil]
      exact congrArg (· ++ [[]]) hsplit
    rw [hlast, List.foldl_append, foldl_urlSegment h.plain]
    rfl

/-- The segments of a normal form below segments in normal form. -/
theorem foldl_below (hsegs : ∀ s ∈ segs, PlainSegment s) (hrest : PlainRest (climbs url).2 restSegs) :
    (segs ++ Str.split url '/').foldl urlSegment [] = segs.take (segs.length - (climbs url).1) ++ restSegs := by
  rw [List.foldl_append, foldl_urlSegment hsegs, List.nil_append, foldl_climbs, foldl_rest hrest]

theorem normalizeUrlPath_rooted (hsegs : ∀ s ∈ segs, PlainSegment s) (hrest : PlainRest (climbs url).2 restSegs) :
    normalizeUrlPath (slashed segs ++ '/' :: url) = slashed (segs.take (segs.length - (climbs url).1) ++ restSegs) := by
  have hsplit : Str.split (slashed segs ++ '/' :: url) '/' = [] :: (segs ++ Str.split url '/') :=
    split_slashed List.not_mem_nil (fun s hs => (hsegs s hs).noSlash) url
  have hhead : (slashed segs ++ '/' :: url).head? = some '/' := by cases segs <;> rfl
  rw [normalizeUrlPath, hsplit, List.foldl_cons, show urlSegment [] [] = [] from rfl, foldl_below hsegs hrest,
    if_pos hhead, slashed_eq (by simp [hrest.nonempty])]

theorem normalizeUrlPath_first {first : Str} (hfirst : PlainSegment first) (hsegs : ∀ s ∈ segs, PlainSegment s)
    (hrest : PlainRest (climbs url).2 restSegs) :
    normalizeUrlPath (first ++ slashed segs ++ '/' :: url) =
      ['/'].intercalate ((first :: segs).take (segs.length + 1 - (climbs url).1) ++ restSegs) := by
  have hall : ∀ s ∈ first :: segs, PlainSegment s := List.forall_mem_cons.mpr ⟨hfirst, hsegs⟩
  have hhead : (first ++ slashed segs ++ '/' :: url).head? ≠ some '/' := by
    obtain ⟨c, cs, rfl⟩ := List.exists_cons_of_ne_nil hfirst.nonempty
    intro h
    cases h
    exact hfirst.noSlash List.mem_cons_self
  rw [normalizeUrlPath, split_slashed hfirst.noSlash (fun s hs => (hsegs s hs).noSlash), foldl_below hall hrest,
    if_neg hhead, List.length_cons]

theorem plain_of_colon {host : Str} (hcolon : ':' ∈ host) (hslash : '/' ∉ host) : PlainSegment host where
  nonempty := fun h => List.not_mem_nil (h ▸ hcolon)
  notHere := fun h => absurd (h ▸ hcolon) (by decide)
  notUp := fun h => absurd (h ▸ hcolon) (by decide)
  noSlash := hslash

/-- A relative URL does not pass through, unless there is a `://` in it. -/
theorem not_isAbsoluteUrl (hrel : isRelativeUrl url = true) (hscheme : url.containsStr "://" = false) : isAbsoluteUrl url = false := by
  have hhead : url.head? ≠ some '/' := by
    intro h
    rcases (Bool.or_eq_true _ _).mp hrel with hp | hp
    · obtain ⟨r, hr⟩ := Option.isSome_iff_exists.mp hp
      rw [stripPrefix_eq_some.mp hr] at h
      cases h
    · obtain ⟨r, hr⟩ := Option.isSome_iff_exists.mp hp
      rw [stripPrefix_eq_some.mp hr] at h
      cases h
  have hnone : ((url.stripPrefix "./").isNone && (url.stripPrefix "../").isNone) = false := by
    rw [isRelativeUrl] at hrel
    rw [← Option.not_isSome, ← Option.not_isSome, ← Bool.not_or, hrel]
    rfl
  rw [isAbsoluteUrl, hscheme, hnone, decide_eq_false hhead]
  rfl

/-- What the code makes of a URL, so many segments up: the host of an scp address is one of them. -/
def UrlKind.below (kind : UrlKind) (segs : List Str) (k : ℕ) (restSegs : List Str) : Str :=
  match kind with
  | .scp host => ['/'].intercalate ((host :: segs).take (segs.length + 1 - k) ++ restSegs)
  | kind => kind.render (segs.take (segs.length - k) ++ restSegs)

/-- The URL that the code makes of plain segments; it takes one away before it goes up. -/
theorem resolveSubmoduleUrl_below {base last : Str} (habs : isAbsoluteUrl url = false)
    (hbase : Str.rsplitOnce base '/' = some (kind.render segs, last)) (hfits : kind.Fits segs)
    (hsegs : ∀ s ∈ segs, PlainSegment s) (hrest : PlainRest (climbs url).2 restSegs) :
    resolveSubmoduleUrl url (some base) = some (kind.below segs (climbs url).1 restSegs) := by
  rw [resolveSubmoduleUrl, if_neg (by rw [habs]; exact Bool.false_ne_true), Option.map_some, hbase]
  dsimp only
  congr 1
  cases kind with
  | scheme name host =>
    obtain ⟨hname, -, hhost⟩ := hfits
    have hsplit : Str.splitOnceStr (UrlKind.render (.scheme name host) segs) "://" = some (name, host ++ slashed segs) := by
      rw [UrlKind.render, List.append_assoc, List.append_assoc]
      exact splitOnceStr_scheme hname _
    rw [hsplit]
    dsimp only
    cases segs with
    | nil =>
      rw [slashed_nil, List.append_nil, splitOnce_eq_none.mpr hhost]
      dsimp only
      rw [show List.rdropWhile (fun x => decide (x = '/')) ['/'] = slashed [] from rfl, normalizeUrlPath_rooted hsegs hrest]
      simp [UrlKind.below, UrlKind.render]
    | cons s segs =>
      have hfirst : Str.splitOnce (host ++ slashed (s :: segs)) '/' = some (host, s ++ slashed segs) :=
        splitOnce_eq_some.mpr ⟨by simp, hhost⟩
      rw [hfirst]
      dsimp only
      rw [show '/' :: (s ++ slashed segs) = slashed (s :: segs) from rfl, rdropWhile_slashed hsegs, normalizeUrlPath_rooted hsegs hrest]
      simp [UrlKind.below, UrlKind.render]
  | rooted =>
    have hsplit : Str.splitOnceStr (UrlKind.render .rooted segs) "://" = none := splitOnceStr_slashed List.not_mem_nil hsegs
    rw [hsplit]
    dsimp only
    rw [UrlKind.render, rdropWhile_slashed hsegs, normalizeUrlPath_rooted hsegs hrest]
    rfl
  | scp host =>
    obtain ⟨hcolon, hslash⟩ := hfits
    have hplain := plain_of_colon hcolon hslash
    rw [UrlKind.render, splitOnceStr_slashed hslash hsegs]
    dsimp only
    rw [rdropWhile_first hplain hsegs, normalizeUrlPath_first hplain hsegs hrest]
    rfl
  | relative =>
    obtain ⟨first, rest, rfl, -⟩ := hfits
    obtain ⟨hplain, htail⟩ := List.forall_mem_cons.mp hsegs
    rw [UrlKind.render, intercalate_cons_eq, splitOnceStr_slashed hplain.noSlash htail]
    dsimp only
    rw [rdropWhile_first hplain htail, normalizeUrlPath_first hplain htail hrest]
    rfl

/-- What stands before the last slash of a URL, with the slash. -/
def directoryOf (base : Str) : Str := ((Str.rsplitOnce base '/').map fun p => p.1 ++ "/".toList).getD []

/-- A superproject whose directory is in normal form, and a URL that goes up in that directory and down again. -/
structure Within (base url : Str) : Prop where
  relative : isRelativeUrl url = true
  noScheme : url.containsStr "://" = false
  path : ∃ (kind : UrlKind) (segs restSegs : List Str) (last : Str), base = kind.render segs ++ '/' :: last ∧ '/' ∉ last ∧
    kind.Fits segs ∧ (∀ s ∈ segs, PlainSegment s) ∧ (climbs url).1 ≤ segs.length ∧ PlainRest (climbs url).2 restSegs

/-- **The code resolves a relative URL as git does for a superproject at the directory of the URL.** -/
theorem resolveSubmoduleUrl_eq {base : Str} (h : Within base url) :
    resolveSubmoduleUrl url (some base) = gitSubmoduleUrl url (directoryOf base) := by
  obtain ⟨kind, segs, restSegs, last, rfl, hlast, hfits, hsegs, hclimbs, hrest⟩ := h.path
  have hbase : Str.rsplitOnce (kind.render segs ++ '/' :: last) '/' = some (kind.render segs, last) :=
    rsplitOnce_eq_some.mpr ⟨rfl, hlast⟩
  have hdirectory : directoryOf (kind.render segs ++ '/' :: last) = kind.render segs ++ "/".toList := by
    rw [directoryOf, hbase]
    rfl
  obtain ⟨init, removed, rfl, hlength⟩ : ∃ init removed, segs = init ++ removed ∧ (climbs url).1 = removed.length :=
    ⟨segs.take (segs.length - (climbs url).1), segs.drop (segs.length - (climbs url).1), (List.take_append_drop ..).symm,
      by rw [List.length_drop]; omega⟩
  rw [resolveSubmoduleUrl_below (not_isAbsoluteUrl h.relative h.noScheme) hbase hfits hsegs hrest, hdirectory, gitSubmoduleUrl,
    if_pos h.relative, gitRelativeUrl_render hfits hsegs hlength hrest, hlength]
  congr 1
  have htake : (init ++ removed).take ((init ++ removed).length - removed.length) = init := by simp
  cases kind with
  | scp host =>
    have htake' : (host :: (init ++ removed)).take ((init ++ removed).length + 1 - removed.length) = host :: init := by
      rw [List.length_append, show init.length + removed.length + 1 - removed.length = init.length + 1 by omega, List.take_succ_cons]
      simp
    rw [UrlKind.below, htake', List.cons_append, intercalate_cons_eq]
    rfl
  | scheme name host => rw [UrlKind.below, htake]; exact nofun
  | rooted => rw [UrlKind.below, htake]; exact nofun
  | relative => rw [UrlKind.below, htake]; exact nofun

end Milpa.Core.Git
