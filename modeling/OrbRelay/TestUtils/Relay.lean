import OrbRelay.Client.Authentic
import OrbRelay.TestUtils.TestServer

/-!
# Clients on a `TestServer`

A relay for the clients, built from `TestServer` and the handler of the end-to-end test.
What a client hears on it was sent by a client, to a destination with its key. Where no
payload is for another id than its hearer's, the clients do what they can do on the relay
of a network.
-/
namespace OrbRelay.TestUtils
open Client Transition

theorem forward_response (state : Unit) (msg : RelayConnectRequest) (payload : RelayPayload) :
    (forward state msg).outcome ≠ .returned (some (some (.payload payload))) := by
  intro h
  match msg with
  | .connectRequest ⟨some entity, _⟩ => cases h
  | .connectRequest ⟨none, _⟩ => cases h
  | .payload p => cases h
  | .heartbeat _ => cases h

theorem forward_call {state : Unit} {msg : RelayConnectRequest} {payload : RelayPayload}
    (h : .send payload ∈ (forward state msg).calls) : msg = .payload payload := by
  match msg with
  | .connectRequest ⟨some entity, _⟩ => cases h
  | .connectRequest ⟨none, _⟩ => cases h
  | .payload p =>
    cases List.mem_singleton.mp h
    rfl
  | .heartbeat _ => cases h

namespace Server

variable {s s' : Server Unit} {a : ServerAction} {P : RelayPayload → Tag → Prop}

/-- The payloads that were read have the property. -/
def Read (P : RelayPayload → Tag → Prop) (s : Server Unit) : Prop :=
  ∀ w ∈ s.conns, ∀ payload tag, (.payload payload, tag) ∈ w.read → P payload tag

/-- So do all that are on their way, and those yielded are such as were received. -/
structure Carries (P : RelayPayload → Tag → Prop) (s : Server Unit) : Prop where
  tasks : ∀ payload tag, .send payload tag ∈ s.tasks → P payload tag
  commands : ∀ w ∈ s.conns, ∀ payload tag,
    .send payload tag ∈ w.rx ∨ .send payload tag ∈ w.received → P payload tag
  yielded : ∀ w ∈ s.conns, ∀ payload tag,
    (some (.payload payload), tag) ∈ w.yielded → .send payload tag ∈ w.received

theorem Carries.mono {Q : RelayPayload → Tag → Prop} (h : s.Carries P)
    (hpq : ∀ payload tag, P payload tag → Q payload tag) : s.Carries Q :=
  ⟨fun payload tag ht => hpq _ _ (h.tasks payload tag ht),
    fun w hw payload tag hc => hpq _ _ (h.commands w hw payload tag hc), h.yielded⟩

theorem Conn.Moves.received_subset {w w' : Conn} (h : w.Moves w') : w.received ⊆ w'.received := by
  cases h with
  | send payload tag rest hq => exact List.subset_append_left _ _
  | terminate rest hq => exact List.subset_append_left _ _
  | handle msg tag outcome hh =>
    rw [w.answer_received]
    exact List.Subset.refl _
  | _ => exact List.Subset.refl _

theorem Carries.moves (h : s.Carries P) (hread : s.Read P) (ho : ∀ w ∈ s.conns, w.Orderly)
    (hm : Moves forward s a s') : s'.Carries P := by
  constructor
  · intro payload tag ht
    rcases hm.task_of ht with ht | ⟨c, w, msg, tag', call, hc, hh, hcall, heq⟩
    · exact h.tasks payload tag ht
    · have hw := List.mem_of_getElem? hc
      cases call with
      | stop entity => cases heq
      | send payload' =>
        cases heq
        obtain rfl := forward_call hcall
        exact hread w hw payload tag ((ho w hw).held_mem hh)
  · intro w' hw' payload tag hcmd
    obtain ⟨c, hc'⟩ := List.mem_iff_getElem?.mp hw'
    rcases hm.conn_of hc' with ⟨rfl, -⟩ | ⟨w, hc, hmoves⟩
    · simp [Conn.new] at hcmd
    have hw := List.mem_of_getElem? hc
    rcases hcmd with hcmd | hcmd
    · rcases hmoves.rx payload tag hcmd with hrx | ⟨htask, -⟩
      · exact h.commands w hw payload tag (.inl hrx)
      · exact h.tasks payload tag htask
    · rcases hmoves.moves with rfl | hmove
      · exact h.commands w' hw payload tag (.inr hcmd)
      · exact h.commands w hw payload tag (hmove.received_of hcmd).symm
  · intro w' hw' payload tag hy
    obtain ⟨c, hc'⟩ := List.mem_iff_getElem?.mp hw'
    rcases hm.conn_of hc' with ⟨rfl, -⟩ | ⟨w, hc, hmoves⟩
    · cases hy
    rcases hmoves.yielded payload tag hy with hy | hrec | ⟨state, msg, hresp⟩
    · have hrec := h.yielded w (List.mem_of_getElem? hc) payload tag hy
      rcases hmoves.moves with rfl | hmove
      · exact hrec
      · exact Conn.Moves.received_subset hmove hrec
    · exact hrec
    · exact absurd hresp (forward_response state msg payload)

end Server

/-! ## The network of clients and server -/

/-- A connection serves stream `stream` of a client. It has read `read` of its frames, and
the client has heard `heard` of the items that the connection has yielded. -/
structure Link (ι : Type) where
  client : ι
  stream : ℕ
  read : ℕ
  heard : ℕ

/-- The clients, the server, and what each of its connections is for. -/
structure Net (ι : Type) where
  clients : ι → System
  server : Server Unit
  links : List (Link ι)

/-- A client acts on its own; the server takes a stream, reads a frame from one, or acts
on its own; a client hears an item. -/
inductive RelayAction (ι : Type) where
  | own (i : ι) (a : Action)
  | accept (i : ι) (k : ℕ)
  | read (c : ConnId)
  | serve (a : ServerAction)
  | hear (c : ConnId)

def isMessage : Action → Bool
  | .response (.message _ _) => true
  | _ => false

/-- What the server does without a client. -/
def ServerAction.internal : ServerAction → Bool
  | .accept | .read _ (.message _ _) => false
  | _ => true

/-- The tag under which a frame passes the server. -/
def frameTag (client : ClientId) (f : Frame) : Tag :=
  match f.origin with
  | .op o => ⟨client, o⟩
  | _ => ⟨client, 0⟩

section

variable {ι : Type} (M : Members ι)

namespace Net

def initial : Net ι := ⟨M.initial, .initial (), []⟩

def step [DecidableEq ι] (n : Net ι) : RelayAction ι → Option (Net ι)
  | .own i a =>
    if isMessage a then none
    else do
      let s ← (n.clients i).step (M.opts i) a
      some { n with clients := Function.update n.clients i s }
  | .accept i k =>
    if k < (n.clients i).exchange.tonic.streams.length ∧
        ∀ l ∈ n.links, l.client = i → l.stream ≠ k then do
      let server ← n.server.step forward .accept
      some { n with server := server, links := n.links ++ [⟨i, k, 0, 0⟩] }
    else none
  | .read c => do
    let l ← n.links[c]?
    let w ← (n.clients l.client).exchange.tonic.streams[l.stream]?
    let f ← w.yielded[l.read]?
    let server ← n.server.step forward
      (.read c (.message (some f.request) (frameTag (M.opts l.client).clientId f)))
    some { n with server := server, links := n.links.set c { l with read := l.read + 1 } }
  | .serve a =>
    if a.internal then do
      let server ← n.server.step forward a
      some { n with server := server }
    else none
  | .hear c => do
    let l ← n.links[c]?
    let v ← n.server.conns[c]?
    let x ← v.yielded[l.heard]?
    let w ← (n.clients l.client).exchange.tonic.streams[l.stream]?
    if w.token = (n.clients l.client).attempt then do
      let s ← (n.clients l.client).step (M.opts l.client) (.response (.message x.1 x.2))
      some { n with
        clients := Function.update n.clients l.client s
        links := n.links.set c { l with heard := l.heard + 1 } }
    else none

variable {M} {n n' t : Net ι} {a : RelayAction ι} {i j : ι} {c : ConnId}
  {tr : List (Net ι × RelayAction ι)}

/-! ## Where the frames come from -/

/-- A stream of client `i` has yielded the request. -/
def Said (M : Members ι) (clients : ι → System) (i : ι) (x : RelayConnectRequest × Tag) : Prop :=
  ∃ (k m : ℕ) (w : Forwarder Frame) (f : Frame),
    (clients i).exchange.tonic.streams[k]? = some w ∧ w.yielded[m]? = some f ∧
      x = (f.request, frameTag (M.opts i).clientId f)

/-- What holds over all runs: the clients and the server are in states of their own runs,
and what the server has read and carries was said by the clients. -/
structure Inv (M : Members ι) (n : Net ι) : Prop where
  clients : ∀ i, Reachable (System.step (M.opts i)) (System.initial (M.token i)) (n.clients i)
  server : Reachable (Server.step forward) (Server.initial ()) n.server
  links : n.links.length = n.server.conns.length
  read : ∀ (c : ConnId) (l : Link ι) (w : Conn), n.links[c]? = some l →
    n.server.conns[c]? = some w → ∀ x ∈ w.read, Said M n.clients l.client x
  carries : n.server.Carries fun p tag => ∃ j, Said M n.clients j (.payload p, tag)

theorem client_of_set {links : List (Link ι)} {c c' : ConnId} {l l' l₁ : Link ι}
    (hl : links[c]? = some l) (h : (links.set c l')[c']? = some l₁)
    (hclient : l'.client = l.client) :
    ∃ l₀ : Link ι, links[c']? = some l₀ ∧ l₁.client = l₀.client := by
  by_cases hcc : c = c'
  · subst hcc
    rw [List.getElem?_set_self (List.getElem?_eq_some_iff.mp hl).1] at h
    cases h
    exact ⟨l, hl, hclient⟩
  · rw [List.getElem?_set_ne hcc] at h
    exact ⟨l₁, h, rfl⟩

/-- What the clients have heard does not matter. -/
theorem Inv.relink {l l' : Link ι} (h : n.Inv M) (hl : n.links[c]? = some l)
    (hclient : l'.client = l.client) : Net.Inv M { n with links := n.links.set c l' } where
  clients := h.clients
  server := h.server
  links := List.length_set.trans h.links
  read c' l₁ w hl₁ hc x hx := by
    obtain ⟨l₀, hl₀, hclient₀⟩ := client_of_set hl hl₁ hclient
    rw [hclient₀]
    exact h.read c' l₀ w hl₀ hc x hx
  carries := h.carries

/-- A step of the server, in which it reads what a client has said, if anything. -/
theorem Inv.server_step {b : ServerAction} {server : Server Unit} {links : List (Link ι)}
    (h : n.Inv M) (hs : n.server.step forward b = some server)
    (hlinks : links.length = server.conns.length)
    (hkept : ∀ (c : ConnId) (l : Link ι) (w : Conn), links[c]? = some l →
      n.server.conns[c]? = some w → ∃ l₀ : Link ι, n.links[c]? = some l₀ ∧ l.client = l₀.client)
    (hread : ∀ (c : ConnId) (l : Link ι) (x : RelayConnectRequest × Tag), links[c]? = some l →
      b = .read c (.message (some x.1) x.2) → Said M n.clients l.client x) :
    Net.Inv M { n with server := server, links := links } where
  clients := h.clients
  server := h.server.snoc hs
  links := hlinks
  read c l w hl hc x hx := by
    rcases (Server.moves_of_step hs).read_of hc hx with ⟨w₀, hc₀, hx⟩ | hb
    · obtain ⟨l₀, hl₀, hclient⟩ := hkept c l w₀ hl hc₀
      rw [hclient]
      exact h.read c l₀ w₀ hl₀ hc₀ x hx
    · exact hread c l x hl hb
  carries := by
    refine h.carries.moves (fun v hv payload tag hx => ?_) (Server.orderly_of_reachable h.server)
      (Server.moves_of_step hs)
    obtain ⟨c, hc⟩ := List.mem_iff_getElem?.mp hv
    have hlt : c < n.links.length := h.links ▸ (List.getElem?_eq_some_iff.mp hc).1
    exact ⟨_, h.read c _ v (List.getElem?_eq_getElem hlt) hc _ hx⟩

/-! ## What the clients hear -/

/-- A payload that a client has said is that of one of its calls. -/
theorem Inv.said_payload {p : RelayPayload} {tag : Tag} (h : n.Inv M)
    (hs : Said M n.clients j (.payload p, tag)) :
    ∃ (k m : ℕ) (w : Forwarder Frame) (o : OpId) (op : Op),
      (n.clients j).exchange.tonic.streams[k]? = some w ∧
      w.yielded[m]? = some ⟨.payload p, .op o⟩ ∧ tag = ⟨(M.opts j).clientId, o⟩ ∧
      (n.clients j).exchange.ops[o]? = some op ∧ p = op.call.relayPayload (M.opts j) := by
  obtain ⟨k, m, w, f, hk, hm, heq⟩ := hs
  have hw := List.mem_of_getElem? hk
  have hf := List.mem_of_getElem? hm
  cases System.own_of_yielded (h.clients j) hw hf with
  | payload p' o =>
    cases heq
    obtain ⟨op, hop, hframe⟩ := System.said_of_reachable (h.clients j) hw hf rfl
    cases hframe
    exact ⟨k, m, w, o, op, hk, hm, rfl, hop, rfl⟩
  | heartbeat => cases heq
  | connect auth r => cases heq

/-- A connection yields payloads for the key of the client that it serves. -/
theorem Inv.addressed {l : Link ι} {v : Conn} {p : RelayPayload} {tag : Tag} (h : n.Inv M)
    (hl : n.links[c]? = some l) (hv : n.server.conns[c]? = some v)
    (hy : (some (.payload p), tag) ∈ v.yielded) :
    ∃ entity, p.dst = some entity ∧ entityKey entity = entityKey (M.opts l.client).entity ∧
      ∃ j, Said M n.clients j (.payload p, tag) := by
  have hmem := List.mem_of_getElem? hv
  have hreceived := h.carries.yielded v hmem p tag hy
  obtain ⟨entity, hd, e, auth, tag', hread, hkey⟩ :=
    (Server.routed_of_reachable h.server).commands v hmem p tag (.inr hreceived)
  refine ⟨entity, hd, ?_, h.carries.commands v hmem p tag (.inr hreceived)⟩
  obtain ⟨k, m, w, f, hk, hm, heq⟩ := h.read c l v hl hv _ hread
  cases System.own_of_yielded (h.clients l.client) (List.mem_of_getElem? hk)
    (List.mem_of_getElem? hm) with
  | payload p' o => cases heq
  | heartbeat => cases heq
  | connect auth' r =>
    cases heq
    exact hkey.symm

/-- The payload was made by a call of a member, for a destination with the key of `i`. -/
def Sent (M : Members ι) (clients : ι → System) (i : ι) (p : RelayPayload) (tag : Tag) : Prop :=
  ∃ j call entity, tag.client = (M.opts j).clientId ∧
    (clients j).exchange.calls[tag.op]? = some call ∧ p = call.relayPayload (M.opts j) ∧
    p.dst = some entity ∧ entityKey entity = entityKey (M.opts i).entity

theorem inv_initial : (initial M).Inv M where
  clients _ := .refl
  server := .refl
  links := rfl
  read c l w hl := by cases hl
  carries := by
    constructor
    · intro p tag h
      cases h
    · intro w hw
      cases hw
    · intro w hw
      cases hw

variable [DecidableEq ι]

theorem said_kept {clients : ι → System} {b : Action} {s : System} {x : RelayConnectRequest × Tag}
    (hs : (clients i).step (M.opts i) b = some s) (h : Said M clients j x) :
    Said M (Function.update clients i s) j x := by
  obtain ⟨k, m, w, f, hk, hm, rfl⟩ := h
  by_cases hji : j = i
  · subst hji
    obtain ⟨w', hk', -, rest, hy⟩ := System.stream_kept hs hk
    refine ⟨k, m, w', f, by rw [Function.update_self]; exact hk', ?_, rfl⟩
    rw [← hy, List.getElem?_append_left (List.getElem?_eq_some_iff.mp hm).1]
    exact hm
  · exact ⟨k, m, w, f, by rw [Function.update_of_ne hji]; exact hk, hm, rfl⟩

theorem Inv.client_step {b : Action} {s : System} (h : n.Inv M)
    (hs : (n.clients i).step (M.opts i) b = some s) :
    ({ n with clients := Function.update n.clients i s } : Net ι).Inv M where
  clients j := by
    dsimp only
    by_cases hji : j = i
    · subst hji
      rw [Function.update_self]
      exact (h.clients j).snoc hs
    · rw [Function.update_of_ne hji]
      exact h.clients j
  server := h.server
  links := h.links
  read c l w hl hw x hx := said_kept hs (h.read c l w hl hw x hx)
  carries := h.carries.mono fun _ _ ⟨j, hj⟩ => ⟨j, said_kept hs hj⟩

theorem Inv.step (h : n.Inv M) (hs : n.step M a = some n') : n'.Inv M := by
  cases a with
  | own i b =>
    simp only [Net.step] at hs
    split_ifs at hs
    obtain ⟨s, hb, hs⟩ := Option.bind_eq_some_iff.mp hs
    cases hs
    exact h.client_step hb
  | accept i k =>
    simp only [Net.step] at hs
    split_ifs at hs
    obtain ⟨server, hb, hs⟩ := Option.bind_eq_some_iff.mp hs
    cases hs
    refine h.server_step hb ?_ (fun c l w hl hc => ?_) (fun _ _ _ _ heq => by cases heq)
    · cases hb
      simp [h.links]
    · have hlt : c < n.links.length := h.links ▸ (List.getElem?_eq_some_iff.mp hc).1
      rw [List.getElem?_append_left hlt] at hl
      exact ⟨l, hl, rfl⟩
  | read c =>
    obtain ⟨l, hl, hs⟩ := Option.bind_eq_some_iff.mp hs
    obtain ⟨w, hw, hs⟩ := Option.bind_eq_some_iff.mp hs
    obtain ⟨f, hf, hs⟩ := Option.bind_eq_some_iff.mp hs
    obtain ⟨server, hb, hs⟩ := Option.bind_eq_some_iff.mp hs
    cases hs
    have hlen := (Server.moves_of_step hb).conns_length (by simp)
    refine h.server_step hb ((List.length_set.trans h.links).trans hlen.symm)
      (fun _ _ _ hl₁ _ => client_of_set hl hl₁ rfl) fun c₁ l₁ x hl₁ heq => ?_
    simp only [ServerAction.read.injEq, Inbound.message.injEq, Option.some.injEq] at heq
    obtain ⟨rfl, hreq, htag⟩ := heq
    obtain ⟨l₀, hl₀, hclient⟩ := client_of_set hl hl₁ rfl
    obtain rfl := Option.some.inj (hl.symm.trans hl₀)
    rw [hclient]
    exact ⟨l.stream, l.read, w, f, hw, hf, Prod.ext hreq.symm htag.symm⟩
  | serve b =>
    simp only [Net.step] at hs
    split_ifs at hs with hint
    obtain ⟨server, hb, hs⟩ := Option.bind_eq_some_iff.mp hs
    cases hs
    have hlen := (Server.moves_of_step hb).conns_length (by rintro rfl; cases hint)
    refine h.server_step hb (h.links.trans hlen.symm) (fun _ l _ hl _ => ⟨l, hl, rfl⟩) ?_
    rintro c l x - rfl
    cases hint
  | hear c =>
    obtain ⟨l, hl, hs⟩ := Option.bind_eq_some_iff.mp hs
    obtain ⟨v, hv, hs⟩ := Option.bind_eq_some_iff.mp hs
    obtain ⟨x, hx, hs⟩ := Option.bind_eq_some_iff.mp hs
    obtain ⟨w, hw, hs⟩ := Option.bind_eq_some_iff.mp hs
    split_ifs at hs
    obtain ⟨s, hb, hs⟩ := Option.bind_eq_some_iff.mp hs
    cases hs
    have hclient := h.client_step hb
    exact hclient.relink hl rfl

theorem inv_of_reachable (h : Reachable (step M) (initial M) n) : n.Inv M :=
  h.invariant (P := Inv M) inv_initial fun _ _ _ _ hp hs => hp.step hs

/-- What a step does to the clients. -/
inductive Moves (M : Members ι) (n : Net ι) : RelayAction ι → (ι → System) → Prop where
  | stay {a : RelayAction ι} : Moves M n a n.clients
  | own (i : ι) (b : Action) (s : System) (hb : isMessage b = false)
      (hs : (n.clients i).step (M.opts i) b = some s) :
      Moves M n (.own i b) (Function.update n.clients i s)
  | hear (c : ConnId) (l : Link ι) (v : Conn) (msg : Option ResponseMsg) (tag : Tag) (s : System)
      (hl : n.links[c]? = some l) (hv : n.server.conns[c]? = some v)
      (hy : v.yielded[l.heard]? = some (msg, tag))
      (hs : (n.clients l.client).step (M.opts l.client) (.response (.message msg tag)) = some s) :
      Moves M n (.hear c) (Function.update n.clients l.client s)

theorem hear_of_step (hs : n.step M (.hear c) = some n') :
    ∃ (l : Link ι) (v : Conn) (msg : Option ResponseMsg) (tag : Tag) (s : System),
      n.links[c]? = some l ∧ n.server.conns[c]? = some v ∧
      v.yielded[l.heard]? = some (msg, tag) ∧
      (n.clients l.client).step (M.opts l.client) (.response (.message msg tag)) = some s ∧
      n'.clients = Function.update n.clients l.client s := by
  obtain ⟨l, hl, hs⟩ := Option.bind_eq_some_iff.mp hs
  obtain ⟨v, hv, hs⟩ := Option.bind_eq_some_iff.mp hs
  obtain ⟨⟨msg, tag⟩, hy, hs⟩ := Option.bind_eq_some_iff.mp hs
  obtain ⟨w, -, hs⟩ := Option.bind_eq_some_iff.mp hs
  split_ifs at hs
  obtain ⟨s, hb, hs⟩ := Option.bind_eq_some_iff.mp hs
  cases hs
  exact ⟨l, v, msg, tag, s, hl, hv, hy, hb, rfl⟩

theorem moves_of_step (hs : n.step M a = some n') : n.Moves M a n'.clients := by
  cases a with
  | own i b =>
    simp only [Net.step] at hs
    split_ifs at hs with hm
    obtain ⟨s, hb, hs⟩ := Option.bind_eq_some_iff.mp hs
    cases hs
    exact .own i b s (Bool.not_eq_true _ ▸ hm) hb
  | accept i k =>
    simp only [Net.step] at hs
    split_ifs at hs
    obtain ⟨server, -, hs⟩ := Option.bind_eq_some_iff.mp hs
    cases hs
    exact .stay
  | read c =>
    obtain ⟨l, -, hs⟩ := Option.bind_eq_some_iff.mp hs
    obtain ⟨w, -, hs⟩ := Option.bind_eq_some_iff.mp hs
    obtain ⟨f, -, hs⟩ := Option.bind_eq_some_iff.mp hs
    obtain ⟨server, -, hs⟩ := Option.bind_eq_some_iff.mp hs
    cases hs
    exact .stay
  | serve b =>
    simp only [Net.step] at hs
    split_ifs at hs
    obtain ⟨server, -, hs⟩ := Option.bind_eq_some_iff.mp hs
    cases hs
    exact .stay
  | hear c =>
    obtain ⟨l, v, msg, tag, s, hl, hv, hy, hb, heq⟩ := hear_of_step hs
    rw [heq]
    exact .hear c l v msg tag s hl hv hy hb

/-- A client stays or takes a step, in which it hears at most what was yielded for it. -/
theorem client_of_step (hs : n.step M a = some n') (i : ι) :
    n'.clients i = n.clients i ∨ ∃ b, (n.clients i).step (M.opts i) b = some (n'.clients i) ∧
      ∀ msg tag, b = .response (.message (some msg) tag) → ∃ (c : ConnId) (l : Link ι) (v : Conn),
        n.links[c]? = some l ∧ n.server.conns[c]? = some v ∧ (some msg, tag) ∈ v.yielded ∧
          l.client = i := by
  generalize hc : n'.clients = clients
  cases hc ▸ moves_of_step hs with
  | stay => exact .inl rfl
  | own j b s hm hb =>
    by_cases hij : i = j
    · subst hij
      rw [Function.update_self]
      refine .inr ⟨b, hb, ?_⟩
      rintro msg tag rfl
      cases hm
    · exact .inl (Function.update_of_ne hij _ _)
  | hear c l v msg tag s hl hv hy hb =>
    by_cases hij : i = l.client
    · subst hij
      rw [Function.update_self]
      refine .inr ⟨_, hb, ?_⟩
      rintro msg' tag' heq
      cases heq
      exact ⟨c, l, v, hl, hv, List.mem_of_getElem? hy, rfl⟩
    · exact .inl (Function.update_of_ne hij _ _)

theorem calls_kept (hs : n.step M a = some n') (j : ι) :
    (n.clients j).exchange.calls <+: (n'.clients j).exchange.calls := by
  rcases client_of_step hs j with heq | ⟨b, hb, -⟩
  · rw [heq]
  · exact (System.moves_of_step hb).calls_kept

theorem Sent.step {p : RelayPayload} {tag : Tag} (h : Sent M n.clients i p tag)
    (hs : n.step M a = some n') : Sent M n'.clients i p tag := by
  obtain ⟨j, call, entity, htag, hcall, hp, hd, hkey⟩ := h
  exact ⟨j, call, entity, htag, Exchange.calls_get_kept (calls_kept hs j) hcall, hp, hd, hkey⟩

/-- What clients on a `TestServer` hear is what a client has sent, unmodified, to a
destination with their own key. -/
theorem heard_of_reachable (h : Reachable (step M) (initial M) n) :
    ∀ i p tag, (.payload p, tag) ∈ (n.clients i).exchange.heard → Sent M n.clients i p tag := by
  refine h.invariant (P := fun n => ∀ i p tag, (.payload p, tag) ∈ (n.clients i).exchange.heard →
    Sent M n.clients i p tag) (fun i p tag hm => by cases hm) fun u v a hr hu hs i p tag hm => ?_
  have hinv := inv_of_reachable hr
  rcases client_of_step hs i with heq | ⟨b, hb, hyielded⟩
  · exact (hu i p tag (heq ▸ hm)).step hs
  rw [System.heard_of_step hb (System.accounted_of_reachable (hinv.clients i)).timers] at hm
  rcases List.mem_append.mp hm with hm | hm
  · exact (hu i p tag hm).step hs
  have hb : b = .response (.message (some (.payload p)) tag) := by
    have hh := Option.mem_toList.mp hm
    unfold Action.hears? at hh
    split at hh
    · split_ifs at hh
      cases hh
      rfl
    · cases hh
  obtain ⟨c, l, w, hl, hw, hy, rfl⟩ := hyielded _ _ hb
  obtain ⟨entity, hd, hkey, j, hsaid⟩ := hinv.addressed hl hw hy
  obtain ⟨k, m, _, o, op, -, -, rfl, hop, hp⟩ := hinv.said_payload hsaid
  exact Sent.step ⟨j, op.call, entity, rfl, Exchange.calls_get hop, hp, hd, hkey⟩ hs

/-! ## When they are clients on a relay -/

/-- A step in which a client hears a payload for another id. -/
def Diverts (M : Members ι) (n : Net ι) (a : RelayAction ι) : Prop :=
  ∃ (c : ConnId) (l : Link ι) (v : Conn) (p : RelayPayload) (tag : Tag), a = .hear c ∧
    n.links[c]? = some l ∧ n.server.conns[c]? = some v ∧
    v.yielded[l.heard]? = some (some (.payload p), tag) ∧
    p.dst.map Entity.id ≠ some (M.opts l.client).clientId

theorem relays_own {b : Action} {s : System} (hr : Reachable M.step M.initial n.clients)
    (hb : b.hearsPayload = false) (hs : (n.clients i).step (M.opts i) b = some s) :
    Reachable M.step M.initial (Function.update n.clients i s) := by
  refine hr.snoc (a := .own i b) ?_
  simp [Members.step, Members.act, hb, hs]

theorem relays_step (hinv : n.Inv M) (hr : Reachable M.step M.initial n.clients)
    (hd : ¬ n.Diverts M a) (hs : n.step M a = some n') :
    Reachable M.step M.initial n'.clients := by
  generalize hc : n'.clients = clients
  cases hc ▸ moves_of_step hs with
  | stay => exact hr
  | own i b s hm hb =>
    refine relays_own hr ?_ hb
    cases hh : b.hearsPayload with
    | false => rfl
    | true =>
      unfold Action.hearsPayload at hh
      split at hh
      · cases hm
      · cases hh
  | hear c l v msg tag s hl hv hy hb =>
    match msg with
    | some (.payload p) =>
      -- the relay of the network hands over the same frame
      obtain ⟨-, -, -, j, hsaid⟩ := hinv.addressed hl hv (List.mem_of_getElem? hy)
      obtain ⟨k, m, w, o, op, hk, hm, rfl, -⟩ := hinv.said_payload hsaid
      have hdst : p.dst.map Entity.id = some (M.opts l.client).clientId := by
        by_contra hne
        exact hd ⟨c, l, v, p, _, rfl, hl, hv, hy, hne⟩
      refine hr.snoc (a := .deliver l.client j k m) ?_
      simp [Members.step, Members.act, hk, hm, hdst, hb]
    | some (.ack seq r) => exact relays_own hr rfl hb
    | some (.connectResponse id success error) => exact relays_own hr rfl hb
    | none => exact relays_own hr rfl hb

theorem Diverts.not_relays (hinv : n.Inv M) (hd : n.Diverts M a) (hs : n.step M a = some n') :
    ¬ Reachable M.step M.initial n'.clients := by
  intro hr
  obtain ⟨c, l, v, p, tag, rfl, hl, hv, hy, hne⟩ := hd
  obtain ⟨l', v', msg, tag', s, hl', hv', hy', hb, heq⟩ := hear_of_step hs
  cases hl.symm.trans hl'
  cases hv.symm.trans hv'
  cases hy.symm.trans hy'
  have ht := (System.accounted_of_reachable (hinv.clients l.client)).timers
  have hheard : (.payload p, tag) ∈ (n'.clients l.client).exchange.heard := by
    rw [heq, Function.update_self, System.heard_of_step hb ht]
    exact List.mem_append_right _ List.mem_cons_self
  obtain ⟨j, call, htag, hcall, hp, hi⟩ :=
    Members.genuine_of_reachable hr l.client p tag (Exchange.trail_of_heard hheard)
  obtain ⟨dst, hid, hpayload⟩ := call.relayPayload_eq (M.opts j)
  refine hne ?_
  rw [hp, hpayload]
  exact congrArg some (hid.trans hi)

/-- On a `TestServer` the clients do what they can do on the relay of a network exactly as
long as no client hears a payload for another id. -/
theorem relays_iff (h : Run (step M) (initial M) tr t) :
    (∀ u ∈ visited tr t, Reachable M.step M.initial u.clients) ↔
      ∀ x ∈ tr, ¬ x.1.Diverts M x.2 :=
  h.exact (P := fun n => Reachable M.step M.initial n.clients) .refl
    (fun _ _ _ hr hp hd hs => relays_step (inv_of_reachable hr) hp hd hs) (fun _ _ hp => hp)
    fun _ _ _ hr hd hs => hd.not_relays (inv_of_reachable hr) hs

/-- No two clients have the same key, and nobody sends or asks under the key of a client
but with its id. -/
structure Separate (M : Members ι) (clients : ι → System) : Prop where
  keys : Function.Injective fun i => entityKey (M.opts i).entity
  targets : ∀ i j, ∀ call ∈ (clients j).exchange.calls, call.own = true → ∀ entity,
    (call.relayPayload (M.opts j)).dst = some entity →
    entityKey entity = entityKey (M.opts i).entity → entity.id = (M.opts i).clientId

theorem Separate.of_step (h : Separate M n'.clients) (hs : n.step M a = some n') :
    Separate M n.clients :=
  ⟨h.keys, fun i j call hcall => h.targets i j call ((calls_kept hs j).subset hcall)⟩

/-- A reply goes to a client that has sent, so only sends and asks can miss. -/
theorem not_diverts (hinv : n.Inv M) (hr : Reachable M.step M.initial n.clients)
    (hk : Separate M n.clients) : ¬ n.Diverts M a := by
  rintro ⟨c, l, v, p, tag, rfl, hl, hv, hy, hne⟩
  obtain ⟨entity, hd, hkey, j, hsaid⟩ := hinv.addressed hl hv (List.mem_of_getElem? hy)
  obtain ⟨k, m, w, o, op, -, -, -, hop, rfl⟩ := hinv.said_payload hsaid
  refine hne ?_
  rw [hd]
  have hcall := Exchange.calls_get hop
  have htarget (hown : op.call.own = true) :=
    hk.targets l.client j op.call (List.mem_of_getElem? hcall) hown entity hd hkey
  refine congrArg some ?_
  cases heq : op.call with
  | send msg seq => exact htarget (heq ▸ rfl)
  | ask msg seq => exact htarget (heq ▸ rfl)
  | reply on payload qos =>
    rw [heq] at hcall hd
    obtain ⟨-, i, -, -, -, hfrom, -⟩ := Members.made_of_reply hr hcall
    cases hd
    rw [hfrom] at hkey ⊢
    rw [hk.keys hkey]
    rfl

/-- Where keys are separate, the clients on a `TestServer` are the clients on a relay. -/
theorem relays_of_separate (h : Reachable (step M) (initial M) n) (hk : Separate M n.clients) :
    Reachable M.step M.initial n.clients := by
  refine h.invariant (P := fun n => Separate M n.clients → Reachable M.step M.initial n.clients)
    (fun _ => .refl) (fun u v a hr hu hs hk => ?_) hk
  have hkept := hk.of_step hs
  have hinv := inv_of_reachable hr
  have hclients := hu hkept
  exact relays_step hinv hclients (not_diverts hinv hclients hkept) hs

end Net
end

/-! ## App and orb on a `TestServer` -/

namespace Net
open Members

/-- A client connects as connection `c` and announces itself. -/
def connects (i : Peer) (c : ConnId) : List (RelayAction Peer) :=
  [.own i (.validate none), .own i (.dial .ok), .own i (.relayConnect none),
    .own i (.tonic (.poll 0)), .own i (.tonic (.handOver 0)), .own i (.tonic (.yield_ 0)),
    .accept i 0, .read c, .serve (.insert c), .serve (.handle c), .hear c]

/-- The first call of a client goes out and through the server to connection `d`. -/
def calls (i : Peer) (c d : ConnId) : List (RelayAction Peer) :=
  [.own i (.client (.poll 0)), .own i (.client (.poll 0)), .own i .take, .own i .take,
    .own i (.tonic (.poll 0)), .own i (.tonic (.handOver 0)), .own i (.tonic (.yield_ 0)),
    .read c, .serve (.handle c), .serve (.run 0), .serve (.recv d), .hear d]

def connectBoth : List (RelayAction Peer) := connects .app 0 ++ connects .orb 1

/-- The app asks and the orb replies. -/
def asksOrb : List (RelayAction Peer) :=
  .own .app (.client (.ask ⟨.orb, [1], "orb", "ns", .atLeastOnce⟩)) :: calls .app 0 1 ++
    [.own .orb (.client .recv), .own .orb (.client (.reply 0 [2] .atLeastOnce))] ++
    calls .orb 1 0 ++ [.own .app (.client (.poll 0))]

/-- The orb sends to an entity that is not there, and whose key is that of the app. -/
def sendsAstray : List (RelayAction Peer) :=
  .own .orb (.client (.send ⟨.app, [3], "ap", "pns", .atLeastOnce⟩)) :: calls .orb 1 0

/-- The payload for the other entity. -/
def astray : RelayPayload := ⟨some ⟨"orb", 2, "ns"⟩, some ⟨"ap", 1, "pns"⟩, 0, some ⟨"", [3]⟩⟩

theorem sendsAstray_exec :
    ((exec (step appAndOrb) (initial appAndOrb) (connectBoth ++ sendsAstray)).map
      fun t => (t.clients .app).exchange.heard) = some [(.payload astray, ⟨"orb", 0⟩)] := by
  decide

/-- The app hears a payload for `ap` in the namespace `pns`. -/
theorem sendsAstray_heard :
    ∃ t, Reachable (step appAndOrb) (initial appAndOrb) t ∧
      (t.clients .app).exchange.heard = [(.payload astray, ⟨"orb", 0⟩)] ∧
      Sent appAndOrb t.clients .app astray ⟨"orb", 0⟩ := by
  obtain ⟨tr, t, h, hp⟩ := Run.of_exec_map sendsAstray_exec
  exact ⟨t, ⟨tr, h⟩, hp, heard_of_reachable ⟨tr, h⟩ .app _ _ (hp ▸ List.mem_singleton_self _)⟩

/-- No relay of the network can do that, so a step has diverted the payload. -/
theorem sendsAstray_diverts :
    ∃ tr t, Run (step appAndOrb) (initial appAndOrb) tr t ∧
      ∃ x ∈ tr, x.1.Diverts appAndOrb x.2 := by
  obtain ⟨tr, t, h, hp⟩ := Run.of_exec_map sendsAstray_exec
  refine ⟨tr, t, h, ?_⟩
  by_contra hno
  have hr := (relays_iff h).mpr (fun x hx hd => hno ⟨x, hx, hd⟩) t (by simp [visited])
  have hmem : (.payload astray, ⟨"orb", 0⟩) ∈ (t.clients .app).exchange.heard := by simp [hp]
  obtain ⟨j, call, -, -, hmade, htarget⟩ :=
    genuine_of_reachable hr .app _ _ (Exchange.trail_of_heard hmem)
  obtain ⟨dst, hid, heq⟩ := call.relayPayload_eq (appAndOrb.opts j)
  have hdst : astray.dst = some dst := congrArg RelayPayload.dst (hmade.trans heq)
  have hap : "ap" = dst.id := congrArg Entity.id (Option.some.inj hdst)
  exact absurd (hap.trans (hid.trans htarget)) (by decide)

/-- Where the app asks the orb, by its id, keys are separate. -/
theorem asksOrb_relayed :
    ∃ t, Reachable (step appAndOrb) (initial appAndOrb) t ∧
      appAnswers t.clients = [(0, [2], ⟨"orb", 0⟩)] ∧
      Reachable appAndOrb.step appAndOrb.initial t.clients := by
  have he : ((exec (step appAndOrb) (initial appAndOrb) (connectBoth ++ asksOrb)).map
      fun t => (appAnswers t.clients, (t.clients .app).exchange.calls,
        (t.clients .orb).exchange.calls.map Call.own)) =
      some ([(0, [2], ⟨"orb", 0⟩)], [.ask ⟨.orb, [1], "orb", "ns", .atLeastOnce⟩ 0], [false]) := by
    decide
  obtain ⟨tr, t, h, hp⟩ := Run.of_exec_map he
  simp only [Prod.mk.injEq] at hp
  obtain ⟨hanswers, happ, horb⟩ := hp
  refine ⟨t, ⟨tr, h⟩, hanswers, relays_of_separate ⟨tr, h⟩ ⟨?_, ?_⟩⟩
  · intro i j hij
    cases i <;> cases j <;> first | rfl | exact absurd hij (by decide)
  · intro i j call hcall hown entity hd hkey
    cases j with
    | app =>
      rw [happ] at hcall
      cases List.mem_singleton.mp hcall
      cases hd
      cases i with
      | app => exact absurd hkey (by decide)
      | orb => rfl
    | orb =>
      have hfalse : call.own ∈ [false] := horb ▸ List.mem_map_of_mem hcall
      simp [hown] at hfalse

end Net
end OrbRelay.TestUtils
