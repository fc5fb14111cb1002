import CommonCpp.Http.Client

/-!
# What a client sends

The requests a client hands to the network over all its calls. A request goes out once
the host is resolved, the connection is made and the handshake is through, whatever
comes of the write and of the response (`run_sent`); a call that throws on the way has
sent it just the same. So the requests sent are those of the calls that got that far,
each once and in order (`session_sent`).
-/

namespace CommonCpp.Http

open CommonCpp.Lib CommonCpp.Text

/-- From this operation on, nothing fails in front of the write. -/
def Answers.reachesWrite (answers : Answers) (stage : Stage) : Bool :=
  stage.onward.all fun st => st = .write ∨ st = .read ∨ answers.outcome st = none

/-- The request a call of this client sends, if it sends one. -/
def Client.sends (beast : Beast) (c : Client) (x : Method × Answers) : Option Request :=
  if x.2.reachesWrite .resolve then x.1.request beast c else none

/-- The client that is left. -/
def Ended.left : Ended → Option Client
  | .returned s | .threw s => some s
  | .crashed | .running => none

section

variable (beast : Beast) (answers : Answers)

theorem reachesWrite_of_failed {answers : Answers} {stage : Stage} {message : CString}
    (h : answers.outcome stage = some message) :
    answers.reachesWrite stage = decide (stage = .write ∨ stage = .read) := by
  cases stage <;> simp [Answers.reachesWrite, Stage.onward, h]

theorem reachesWrite_of_succeeded {answers : Answers} {stage stage' : Stage}
    (h : answers.outcome stage = none) (hnext : stage.following = some stage') :
    answers.reachesWrite stage = answers.reachesWrite stage' := by
  unfold Answers.reachesWrite
  rw [onward_eq, hnext, List.all_cons]
  simp [h]

/-- From any operation on, the request is sent exactly if the write is reached. -/
theorem run_sent {s s₁ : Client} {stage : Stage} (h : Underway s s₁ stage) (fuel : Nat)
    (hfuel : stage.onward.length < fuel) :
    ∃ s', ((s₁.run beast answers fuel).andThen Client.close).left = some s' ∧
      s'.sent = s.sent ++ if answers.reachesWrite stage then [s.req] else [] := by
  induction fuel generalizing s₁ stage with
  | zero => omega
  | succ fuel ih =>
    rw [onward_eq, List.length_cons] at hfuel
    cases hout : answers.outcome stage with
    | some message =>
      obtain ⟨fuel, rfl⟩ : ∃ n, fuel = n + 1 := ⟨fuel - 1, by omega⟩
      obtain ⟨buffer, res, hrun⟩ := run_failed beast answers h.one hout fuel
      have hsent := h.sent
      rw [hrun, reachesWrite_of_failed hout]
      simp only [decide_eq_true_eq]
      cases failureText answers.address stage message with
      | some text => exact ⟨_, rfl, hsent⟩
      | none => exact ⟨_, rfl, hsent⟩
    | none =>
      rw [run_succeeded beast answers h.one h.stream hout]
      cases hnext : stage.following with
      | some stage' =>
        rw [hnext] at hfuel
        rw [reachesWrite_of_succeeded hout hnext]
        exact ih (underway_next beast answers h hnext) (by simpa using hfuel)
      | none =>
        obtain rfl : stage = .read := by
          cases stage <;> first | rfl | cases hnext
        obtain ⟨fuel, rfl⟩ : ∃ n, fuel = n + 1 := ⟨fuel - 1, by omega⟩
        rw [run_idle beast answers rfl]
        exact ⟨_, rfl, h.sent⟩

theorem connect_sent {s : Client} (hidle : s.ioc.pending = []) :
    ∃ s', (s.connect beast answers).left = some s' ∧
      s'.sent = s.sent ++ if answers.reachesWrite .resolve then [s.req] else [] := by
  have hstart : Underway s { s with error := [], respText := [], ioc := ⟨false, [.resolve]⟩ }
      .resolve :=
    ⟨rfl, .inl rfl, rfl, rfl, rfl, (List.append_nil _).symm, nofun, rfl, rfl, rfl, rfl⟩
  rw [Client.connect, Client.start, hidle]
  exact run_sent beast answers hstart 6 (by decide)

/-- A call sends its request or nothing, and leaves a client that is ready for the next. -/
theorem perform_sent {s : Client} (hidle : s.ioc.pending = []) (call : Method) :
    ∃ s', (s.perform beast call answers).left = some s' ∧ Follows s s' ∧
      s'.sent = s.sent ++ (s.sends beast (call, answers)).toList := by
  obtain ⟨s', hfollow, hends⟩ := perform_report beast answers hidle call
  have hleft : (s.perform beast call answers).left = some s' := by
    cases hreport : s.report beast call answers with
    | some r =>
      rw [hreport] at hends
      rw [hends.1]
      rfl
    | none =>
      rw [hreport] at hends
      rw [hends]
      rfl
  refine ⟨s', hleft, hfollow, ?_⟩
  unfold Client.sends Method.request Client.perform at *
  cases hdraft : call.draft s with
  | none =>
    rw [hdraft] at hleft
    cases hleft
    simp
  | some d =>
    have hset := setFields_eq beast d.fields { s with req := ⟨d.verb, d.target, 11, [], []⟩ }
    rw [hdraft] at hleft
    dsimp only [Option.bind_some] at hleft ⊢
    unfold Draft.request
    cases hall : Request.setAll beast ⟨d.verb, d.target, 11, [], []⟩ d.fields with
    | none =>
      simp only [hall] at hset
      obtain ⟨req, hset⟩ := hset
      rw [hset] at hleft
      cases hleft
      simp
    | some req =>
      simp only [hall] at hset
      rw [hset] at hleft
      obtain ⟨t, ht, hsent⟩ := @connect_sent beast answers
        { s with req := { req with body := d.body } } hidle
      cases hleft.symm.trans ht
      rw [hsent]
      by_cases hreach : answers.reachesWrite .resolve = true
      · simp [hreach]
      · simp [hreach]

end

/-- What is left after a call is where the next one starts. -/
theorem after_cons {beast : Beast} {s s' : Client} {call : Method} {answers : Answers}
    (h : (s.perform beast call answers).left = some s') (history : List (Method × Answers)) :
    s.after beast ((call, answers) :: history) = s'.after beast history := by
  rw [Client.after]
  cases hp : s.perform beast call answers with
  | returned t | threw t =>
    rw [hp] at h
    cases h
    rfl
  | crashed | running =>
    rw [hp] at h
    cases h

theorem after_sent (beast : Beast) {c : Client} (history : List (Method × Answers)) :
    ∀ {s : Client}, Follows c s → s.ioc.pending = [] → ∃ s', s.after beast history = some s' ∧
      s'.ioc.pending = [] ∧ s'.sent = s.sent ++ history.filterMap (c.sends beast) := by
  induction history with
  | nil => exact fun {s} _ hidle => ⟨s, rfl, hidle, (List.append_nil _).symm⟩
  | cons x history ih =>
    intro s hfollow hidle
    obtain ⟨call, answers⟩ := x
    obtain ⟨s₁, hleft, hone, hsent⟩ := perform_sent beast answers hidle call
    obtain ⟨s', hafter, hidle', hall⟩ := ih (hfollow.trans hone) hone.idle
    refine ⟨s', (after_cons hleft history).trans hafter, hidle', ?_⟩
    have hsame : s.sends beast (call, answers) = c.sends beast (call, answers) := by
      unfold Client.sends Method.request
      rw [draft_follows hfollow]
    rw [hall, hsent, hsame, List.append_assoc, List.filterMap_cons]
    cases c.sends beast (call, answers) <;> rfl

/-- **What goes over the network.** For every client, every sequence of calls and every
outcome of each of their operations: no call uses a stream that is not there or leaves a
handler behind, and the requests handed to the network are those of the calls whose
resolve, connect and handshake succeeded, one for each, in the order of the calls, whether
the call then returned or threw; each is the one that the constructor's arguments and the
call alone make. -/
theorem session_sent (beast : Beast) (made : Construction) (history : List (Method × Answers)) :
    ∃ c s, made.client = some c ∧ c.after beast history = some s ∧ s.ioc.pending = [] ∧
      s.sent = history.filterMap (c.sends beast) := by
  obtain ⟨c, hc, hidle⟩ := client_idle made
  have hfirst : c.sent = [] := by
    cases made with
    | named => cases hc; rfl
    | numbered host port =>
      obtain ⟨port, -, rfl⟩ := Option.map_eq_some_iff.mp hc
      rfl
  obtain ⟨s, hafter, hdone, hsent⟩ :=
    after_sent beast history (c := c) ⟨hidle, rfl, rfl, rfl, rfl⟩ hidle
  exact ⟨c, s, hc, hafter, hdone, by rw [hsent, hfirst, List.nil_append]⟩

end CommonCpp.Http
