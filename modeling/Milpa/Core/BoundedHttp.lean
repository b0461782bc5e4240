import Milpa.Types.Sha256
import Mathlib.Data.List.Pairwise

/-!
# Requests that follow redirects

`request` of `bounded_http.rs`: it follows redirects itself, so that a credential is not
sent on once a redirect has left the origin, and only the body of the last response reaches
the sink. The `url` crate, the `http` crate and the server are parameters; the server may
answer each request as it likes, knowing the ones before. What holds of every chain of
redirects is `request_safe`.
-/

namespace Milpa.Core.BoundedHttp

/-! ### What is given -/

/-- `url::Url`. -/
structure UrlCrate where
  Url : Type
  parse : Str → Except Str Url
  join : Url → Str → Except Str Url
  scheme : Url → Str
  hostStr : Url → Option Str
  portOrKnownDefault : Url → Option ℕ
  toText : Url → Str

/-- A request, as it is built. -/
structure Request where
  method : Str
  url : Str
  headers : List (Str × Str)
  deriving DecidableEq

/-- What a read of a body gives: bytes, none at its end, or an error. -/
abbrev Read := Except Str Bytes

/-- A response; the value of a header is its text, where it has one. -/
structure Response where
  status : ℕ
  headers : List (Str × Option Str)
  body : List Read

/-- Where a body lands: a buffer, or a file, whose creation may fail and whose writes may fail after so many bytes. -/
inductive Sink where
  | bytes
  | file (create : Option Str) (write : Bytes → Bytes → Option (ℕ × Str))

/-- The network: whether there is an agent, which requests can be built, and what is answered after which requests. -/
structure Net where
  agent : Option Str
  build : Request → Option Str
  run : List Request → Request → Except Str Response

/-- `HttpResponse`. -/
structure HttpResponse where
  status : ℕ
  headers : List (Str × Option Str)

/-- `FetchError::Transport`, by its message. -/
inductive FetchError where
  | trustStore (detail : Str)
  | unsupportedScheme (url : Str)
  | parsing (url e : Str)
  | resolving (location url e : Str)
  | building (url e : Str)
  | failed (url e : Str)
  | creating (e : Str)
  | reading (url e : Str)
  | writing (url e : Str)
  | sizeExceeded (url : Str) (cap : ℕ)
  | tooManyRedirects (url : Str)
  deriving DecidableEq

/-- The code of an error. -/
def FetchError.code : FetchError → Str
  | .sizeExceeded _ _ => "FETCH-DOWNLOAD-SIZE-EXCEEDED"
  | _ => "FETCH-DOWNLOAD-FAILED"

/-! ### The code -/

/-- `MAX_REDIRECT_HOPS`. -/
def maxRedirectHops : ℕ := 10

/-- `eq_ignore_ascii_case`. -/
def eqIgnoreAsciiCase (a b : Str) : Bool := decide (a.map Char.toLower = b.map Char.toLower)

variable (crate : UrlCrate) (net : Net) (method url : Str) (headers : List (Str × Str)) (cap : ℕ)

/-- `origin`. -/
def origin (text : Str) : Option (Str × Str × ℕ) := do
  let parsed ← (crate.parse text).toOption
  let host ← crate.hostStr parsed
  let port ← crate.portOrKnownDefault parsed
  return ((crate.scheme parsed).map Char.toLower, host.map Char.toLower, port)

/-- `same_origin`. -/
def sameOrigin (a b : Str) : Bool :=
  match origin crate a, origin crate b with
  | some oa, some ob => decide (oa = ob)
  | _, _ => false

/-- `resolve_redirect_target`. -/
def resolveRedirectTarget (current location : Str) : Except FetchError Str :=
  match crate.parse current with
  | .error e => .error (.parsing current e)
  | .ok base =>
    match crate.join base location with
    | .error e => .error (.resolving location current e)
    | .ok target => .ok (crate.toText target)

/-- The scheme is `http` or `https`. -/
def isHttp (text : Str) : Bool :=
  match crate.parse text with
  | .ok parsed => decide (crate.scheme parsed = "http".toList) || decide (crate.scheme parsed = "https".toList)
  | .error _ => false

/-- `stream_capped`, after what has been received: what has been in the end, and how it ends. -/
def streamCapped (cap : ℕ) (url : Str) (write : Bytes → Bytes → Option (ℕ × Str)) : Bytes → List Read → Bytes × Except FetchError Unit
  | got, [] => (got, .ok ())
  | got, .error e :: _ => (got, .error (.reading url e))
  | got, .ok [] :: _ => (got, .ok ())
  | got, .ok (b :: bs) :: rest =>
    if cap < got.length + (b :: bs).length then (got, .error (.sizeExceeded url cap))
    else
      match write got (b :: bs) with
      | some (n, e) => (got ++ (b :: bs).take n, .error (.writing url e))
      | none => streamCapped cap url write (got ++ (b :: bs)) rest

/-- `stream_body_into_sink`. -/
def streamBodyIntoSink (cap : ℕ) (url : Str) (body : List Read) : Sink → Bytes × Except FetchError Unit
  | .bytes => streamCapped cap url (fun _ _ => none) [] body
  | .file (some e) _ => ([], .error (.creating e))
  | .file none write => streamCapped cap url write [] body

/-- The variables of the loop, the requests that were sent, and what the sink has received, by the place of the request. -/
structure Cursor where
  currentUrl : Str
  sink : Option Sink
  stripped : Bool
  sent : List Request
  received : List (ℕ × Bytes)

/-- How a call ends. -/
inductive Ending where
  | returned (result : Except FetchError HttpResponse)
  | panicked

/-- The headers of a request. -/
def keptHeaders (stripped : Bool) : List (Str × Str) := headers.filter fun h => !(eqIgnoreAsciiCase h.1 "authorization" && stripped)

/-- Where a response redirects to. -/
def Response.redirect (r : Response) : Option Str :=
  if 300 ≤ r.status ∧ r.status < 400 then (r.headers.find? fun h => eqIgnoreAsciiCase h.1 "location").bind Prod.snd else none

/-- The terminal response: its body goes to the sink, which is there. -/
def finish (c : Cursor) (response : Response) : Cursor × Ending :=
  match c.sink with
  | none => (c, .panicked)
  | some sink =>
    let (got, result) := streamBodyIntoSink cap c.currentUrl response.body sink
    ({ c with sink := none, received := c.received ++ [(c.sent.length - 1, got)] },
      .returned (result.map fun _ => ⟨response.status, response.headers⟩))

/-- One round of the loop: it goes on, or it ends. -/
def hop (c : Cursor) : Cursor ⊕ (Cursor × Ending) :=
  if isHttp crate c.currentUrl = false then .inr (c, .returned (.error (.unsupportedScheme c.currentUrl)))
  else
    let c := { c with stripped := c.stripped || !sameOrigin crate url c.currentUrl }
    let req : Request := ⟨method, c.currentUrl, keptHeaders headers c.stripped⟩
    match net.build req with
    | some e => .inr (c, .returned (.error (.building c.currentUrl e)))
    | none =>
      let before := c.sent
      let c := { c with sent := c.sent ++ [req] }
      match net.run before req with
      | .error e => .inr (c, .returned (.error (.failed c.currentUrl e)))
      | .ok response =>
        match response.redirect with
        | none => .inr (finish cap c response)
        | some location =>
          match resolveRedirectTarget crate c.currentUrl location with
          | .error e => .inr (c, .returned (.error e))
          | .ok target => .inl { c with currentUrl := target }

/-- The loop, so many rounds. -/
def hops : ℕ → Cursor → Cursor × Ending
  | 0, c => (c, .returned (.error (.tooManyRedirects url)))
  | n + 1, c =>
    match hop crate net method url headers cap c with
    | .inl c' => hops n c'
    | .inr out => out

/-- `request`. -/
def request (sink : Sink) : Cursor × Ending :=
  let c : Cursor := ⟨url, some sink, false, [], []⟩
  if isHttp crate url = false then (c, .returned (.error (.unsupportedScheme url)))
  else
    match net.agent with
    | some detail => (c, .returned (.error (.trustStore detail)))
    | none => hops crate net method url headers cap (maxRedirectHops + 1) c

/-! ### Streaming -/

variable {crate net method url headers cap}

/-- The bytes of a body. -/
def bodyBytes (body : List Read) : Bytes := body.flatMap fun r => (r.toOption).getD []

/-- What is received is a beginning of the body, and no more than the cap. -/
theorem streamCapped_received (url : Str) (write : Bytes → Bytes → Option (ℕ × Str)) {got : Bytes} (hgot : got.length ≤ cap) (body : List Read) :
    ∃ more, (streamCapped cap url write got body).1 = got ++ more ∧ more <+: bodyBytes body ∧
      (streamCapped cap url write got body).1.length ≤ cap := by
  induction body generalizing got with
  | nil => exact ⟨[], by simp [streamCapped], List.nil_prefix, hgot⟩
  | cons read body ih =>
    match read with
    | .error e => exact ⟨[], by simp [streamCapped], List.nil_prefix, hgot⟩
    | .ok [] => exact ⟨[], by simp [streamCapped], List.nil_prefix, hgot⟩
    | .ok (b :: bs) =>
      have hbody : bodyBytes (.ok (b :: bs) :: body) = b :: bs ++ bodyBytes body := rfl
      rw [streamCapped]
      split_ifs with hcap
      · exact ⟨[], by simp, List.nil_prefix, hgot⟩
      · have hfits : (got ++ (b :: bs)).length ≤ cap := by
          rw [List.length_append]
          omega
        cases hwrite : write got (b :: bs) with
        | none =>
          obtain ⟨more, hmore, hbegins, hlength⟩ := ih hfits
          refine ⟨b :: bs ++ more, ?_, ?_, hlength⟩
          · rw [hmore, List.append_assoc]
          · rw [hbody]
            exact (List.prefix_append_right_inj _).mpr hbegins
        | some p =>
          refine ⟨(b :: bs).take p.1, rfl, ?_, ?_⟩
          · rw [hbody]
            exact (List.take_prefix ..).trans (List.prefix_append ..)
          · refine le_trans ?_ hfits
            rw [List.length_append, List.length_append]
            exact Nat.add_le_add_left (List.length_take_le' ..) _

theorem streamBodyIntoSink_received (cap : ℕ) (url : Str) (body : List Read) (sink : Sink) :
    (streamBodyIntoSink cap url body sink).1 <+: bodyBytes body ∧ (streamBodyIntoSink cap url body sink).1.length ≤ cap := by
  have hstream : ∀ write : Bytes → Bytes → Option (ℕ × Str), (streamCapped cap url write [] body).1 <+: bodyBytes body ∧
      (streamCapped cap url write [] body).1.length ≤ cap := by
    intro write
    have hnil : ([] : Bytes).length ≤ cap := Nat.zero_le cap
    obtain ⟨more, hmore, hbegins, hlength⟩ := streamCapped_received url write hnil body
    exact ⟨by rw [hmore]; exact hbegins, hlength⟩
  match sink with
  | .bytes => exact hstream _
  | .file (some e) _ => exact ⟨List.nil_prefix, Nat.zero_le cap⟩
  | .file none write => exact hstream write

/-! ### A chain of redirects -/

/-- A request carries a credential. -/
def Request.Authorized (r : Request) : Prop := ∃ h ∈ r.headers, eqIgnoreAsciiCase h.1 "authorization" = true

/-- A URL has the scheme, the host and the port of another one. -/
def SharesOrigin (crate : UrlCrate) (url text : Str) : Prop := ∃ o, origin crate url = some o ∧ origin crate text = some o

theorem sameOrigin_iff {a b : Str} : sameOrigin crate a b = true ↔ SharesOrigin crate a b := by
  rw [sameOrigin, SharesOrigin]
  cases origin crate a with
  | none => simp
  | some oa => cases origin crate b <;> simp [eq_comm]

/-- What holds of the requests that were sent: they are for `http` or `https`, and one with a credential is at the origin of
the first URL, as all before it are. -/
structure Guarded (crate : UrlCrate) (url : Str) (sent : List Request) : Prop where
  http : ∀ r ∈ sent, isHttp crate r.url = true
  here : ∀ r ∈ sent, r.Authorized → SharesOrigin crate url r.url
  before : sent.Pairwise fun q r => r.Authorized → SharesOrigin crate url q.url

theorem Guarded.nil : Guarded crate url [] where
  http := nofun
  here := nofun
  before := .nil

/-- The variables between two rounds. -/
structure Between (crate : UrlCrate) (url : Str) (c : Cursor) : Prop where
  sink : c.sink ≠ none
  received : c.received = []
  guarded : Guarded crate url c.sent
  /-- Nothing is stripped as long as the origin was not left. -/
  latch : c.stripped = false → ∀ r ∈ c.sent, SharesOrigin crate url r.url

theorem not_authorized_of_stripped {c : Cursor} : ¬ (⟨method, c.currentUrl, keptHeaders headers true⟩ : Request).Authorized := by
  rintro ⟨h, hmem, hname⟩
  simp only [keptHeaders, List.mem_filter, hname] at hmem
  exact absurd hmem.2 (by decide)

/-- The next request. -/
theorem Between.send (method : Str) (headers : List (Str × Str)) {c : Cursor} (h : Between crate url c) (hhttp : isHttp crate c.currentUrl = true) :
    Between crate url { c with
      stripped := c.stripped || !sameOrigin crate url c.currentUrl
      sent := c.sent ++ [⟨method, c.currentUrl, keptHeaders headers (c.stripped || !sameOrigin crate url c.currentUrl)⟩] } := by
  have hall : (c.stripped || !sameOrigin crate url c.currentUrl) = false →
      ∀ r ∈ c.sent ++ [⟨method, c.currentUrl, keptHeaders headers (c.stripped || !sameOrigin crate url c.currentUrl)⟩],
        SharesOrigin crate url r.url := by
    intro hstripped r hr
    obtain ⟨hlatch, hsame⟩ := Bool.or_eq_false_iff.mp hstripped
    rcases List.mem_append.mp hr with hr | hr
    · exact h.latch hlatch r hr
    · obtain rfl := List.mem_singleton.mp hr
      exact sameOrigin_iff.mp (by simpa using hsame)
  have hauth : (⟨method, c.currentUrl, keptHeaders headers (c.stripped || !sameOrigin crate url c.currentUrl)⟩ : Request).Authorized →
      (c.stripped || !sameOrigin crate url c.currentUrl) = false := by
    intro hauthorized
    cases hstripped : c.stripped || !sameOrigin crate url c.currentUrl with
    | false => rfl
    | true =>
      rw [hstripped] at hauthorized
      exact absurd hauthorized not_authorized_of_stripped
  refine ⟨h.sink, h.received, ⟨?_, ?_, ?_⟩, hall⟩
  · intro r hr
    rcases List.mem_append.mp hr with hr | hr
    · exact h.guarded.http r hr
    · obtain rfl := List.mem_singleton.mp hr
      exact hhttp
  · intro r hr hauthorized
    rcases List.mem_append.mp hr with hr' | hr'
    · exact h.guarded.here r hr' hauthorized
    · obtain rfl := List.mem_singleton.mp hr'
      exact hall (hauth hauthorized) _ hr
  · refine List.pairwise_append.mpr ⟨h.guarded.before, List.pairwise_singleton _ _, fun q hq r hr hauthorized => ?_⟩
    obtain rfl := List.mem_singleton.mp hr
    exact hall (hauth hauthorized) q (List.mem_append_left _ hq)

/-- What holds where a call ends: the sink has received nothing, or it has received from the response to the last request,
and no more than the cap; and the sink was there. -/
structure Ended (crate : UrlCrate) (net : Net) (url : Str) (cap : ℕ) (c : Cursor) (ending : Ending) : Prop where
  guarded : Guarded crate url c.sent
  received : c.received = [] ∨ ∃ sent last response got, c.sent = sent ++ [last] ∧ net.run sent last = .ok response ∧
    response.redirect = none ∧ c.received = [(sent.length, got)] ∧ got <+: bodyBytes response.body ∧ got.length ≤ cap
  success : ∀ response, ending = .returned (.ok response) → c.received ≠ []
  noPanic : ending ≠ .panicked

theorem Between.ended {c : Cursor} (h : Between crate url c) (e : FetchError) : Ended crate net url cap c (.returned (.error e)) :=
  ⟨h.guarded, .inl h.received, nofun, nofun⟩

@[simp] theorem finish_sent (c : Cursor) (response : Response) : (finish cap c response).1.sent = c.sent := by
  rw [finish]
  cases c.sink <;> rfl

theorem Between.finish {c : Cursor} (h : Between crate url c) {sent : List Request} {last : Request} {response : Response}
    (hsent : c.sent = sent ++ [last]) (hrun : net.run sent last = .ok response) (hterminal : response.redirect = none) :
    Ended crate net url cap (finish cap c response).1 (finish cap c response).2 := by
  obtain ⟨sink, hsink⟩ := Option.ne_none_iff_exists'.mp h.sink
  obtain ⟨hbegins, hlength⟩ := streamBodyIntoSink_received cap c.currentUrl response.body sink
  rw [BoundedHttp.finish, hsink]
  refine ⟨h.guarded, .inr ⟨sent, last, response, _, hsent, hrun, hterminal, ?_, hbegins, hlength⟩, fun _ _ => by simp, nofun⟩
  dsimp only
  rw [h.received, hsent]
  simp

/-- One round keeps what holds between two rounds, or the call ends well. -/
theorem Between.hop (net : Net) (method : Str) (headers : List (Str × Str)) (cap : ℕ) {c : Cursor} (h : Between crate url c) :
    (∀ c', hop crate net method url headers cap c = .inl c' → Between crate url c' ∧ c'.sent.length = c.sent.length + 1) ∧
    ∀ out, hop crate net method url headers cap c = .inr out →
      Ended crate net url cap out.1 out.2 ∧ out.1.sent.length ≤ c.sent.length + 1 := by
  rw [BoundedHttp.hop]
  cases hhttp : isHttp crate c.currentUrl with
  | false =>
    rw [if_pos rfl]
    refine ⟨nofun, fun out hout => ?_⟩
    cases hout
    exact ⟨h.ended _, Nat.le_succ _⟩
  | true =>
    rw [if_neg (by decide)]
    have hsend := h.send method headers hhttp
    dsimp only
    split
    · refine ⟨nofun, fun out hout => ?_⟩
      cases hout
      exact ⟨⟨h.guarded, .inl h.received, nofun, nofun⟩, Nat.le_succ _⟩
    · split
      · refine ⟨nofun, fun out hout => ?_⟩
        cases hout
        exact ⟨hsend.ended _, by simp⟩
      · rename_i response hrun
        split
        · rename_i hterminal
          refine ⟨nofun, fun out hout => ?_⟩
          cases hout
          refine ⟨hsend.finish rfl hrun hterminal, ?_⟩
          rw [finish_sent]
          simp
        · split
          · refine ⟨nofun, fun out hout => ?_⟩
            cases hout
            exact ⟨hsend.ended _, by simp⟩
          · refine ⟨fun c' hc' => ?_, nofun⟩
            cases hc'
            exact ⟨⟨hsend.sink, hsend.received, hsend.guarded, hsend.latch⟩, by simp⟩

/-- The loop ends well, with as many requests as it has rounds. -/
theorem Between.hops (net : Net) (method : Str) (headers : List (Str × Str)) (cap n : ℕ) {c : Cursor} (h : Between crate url c) :
    Ended crate net url cap (hops crate net method url headers cap n c).1 (hops crate net method url headers cap n c).2 ∧
      (hops crate net method url headers cap n c).1.sent.length ≤ c.sent.length + n := by
  induction n generalizing c with
  | zero => exact ⟨h.ended _, Nat.le_refl _⟩
  | succ n ih =>
    obtain ⟨hgoes, hends⟩ := h.hop net method headers cap
    rw [BoundedHttp.hops]
    cases hhop : BoundedHttp.hop crate net method url headers cap c with
    | inl c' =>
      obtain ⟨hbetween, hlength⟩ := hgoes c' hhop
      obtain ⟨hended, hbound⟩ := ih hbetween
      exact ⟨hended, by dsimp only; omega⟩
    | inr out =>
      obtain ⟨hended, hbound⟩ := hends out hhop
      exact ⟨hended, by dsimp only; omega⟩

theorem request_ended (crate : UrlCrate) (net : Net) (method url : Str) (headers : List (Str × Str)) (cap : ℕ) (sink : Sink) :
    Ended crate net url cap (request crate net method url headers cap sink).1 (request crate net method url headers cap sink).2 ∧
      (request crate net method url headers cap sink).1.sent.length ≤ maxRedirectHops + 1 := by
  have hstart : Between crate url ⟨url, some sink, false, [], []⟩ := ⟨nofun, rfl, .nil, nofun⟩
  rw [request]
  split_ifs
  · exact ⟨hstart.ended _, Nat.zero_le _⟩
  · split
    · exact ⟨hstart.ended _, Nat.zero_le _⟩
    · obtain ⟨hended, hlength⟩ := hstart.hops net method headers cap (maxRedirectHops + 1)
      exact ⟨hended, by simpa using hlength⟩

/-- **Redirects leak neither credentials nor bodies.** Whatever the server answers: a request carries a credential only if it
and all before it have the scheme, the host and the port of the first URL; there are eleven requests at most, and all are for
`http` or `https`; the sink receives from the response to the last request and from no other, on success no more than the
cap; and it is there when it is needed. -/
theorem request_safe (crate : UrlCrate) (net : Net) (method url : Str) (headers : List (Str × Str)) (cap : ℕ) (sink : Sink) :
    let (c, ending) := request crate net method url headers cap sink
    (∀ before r, before ++ [r] <+: c.sent → r.Authorized → ∀ q ∈ before ++ [r], SharesOrigin crate url q.url) ∧
    (∀ r ∈ c.sent, isHttp crate r.url = true) ∧
    c.sent.length ≤ maxRedirectHops + 1 ∧
    (c.received = [] ∨ ∃ sent last response got, c.sent = sent ++ [last] ∧ net.run sent last = .ok response ∧
      response.redirect = none ∧ c.received = [(sent.length, got)] ∧ got <+: bodyBytes response.body) ∧
    (∀ response, ending = .returned (.ok response) → ∃ i got, c.received = [(i, got)] ∧ got.length ≤ cap) ∧
    ending ≠ .panicked := by
  obtain ⟨hended, hlength⟩ := request_ended crate net method url headers cap sink
  dsimp only
  refine ⟨?_, hended.guarded.http, hlength, ?_, ?_, hended.noPanic⟩
  · rintro before r ⟨after, hsent⟩ hauthorized q hq
    have hbefore := hended.guarded.before
    rw [← hsent, List.pairwise_append, List.pairwise_append] at hbefore
    rcases List.mem_append.mp hq with hq | hq
    · exact hbefore.1.2.2 q hq r (List.mem_singleton_self r) hauthorized
    · obtain rfl := List.mem_singleton.mp hq
      exact hended.guarded.here q (hsent ▸ by simp) hauthorized
  · refine hended.received.imp_right ?_
    rintro ⟨sent, last, response, got, hsent, hrun, hterminal, hreceived, hbegins, -⟩
    exact ⟨sent, last, response, got, hsent, hrun, hterminal, hreceived, hbegins⟩
  · intro response hok
    rcases hended.received with hnone | ⟨sent, last, response, got, -, -, -, hreceived, -, hcap⟩
    · exact absurd hnone (hended.success response hok)
    · exact ⟨_, got, hreceived, hcap⟩

end Milpa.Core.BoundedHttp
