import EventContexts.Yaml.Node
import EventContexts.Yaml.Token

namespace EventContexts.Yaml

def Node.nothing : Node := .plain ""

mutual

def readFlow : (fuel : Nat) → List Token → Option (Node × List Token)
  | 0, _ => none
  | _ + 1, .plain s :: ts => some (.plain s, ts)
  | _ + 1, .quoted s :: ts => some (.quoted s, ts)
  | fuel + 1, .openSeq :: ts => (readFlowItems fuel ts).map fun (items, rest) => (.seq items, rest)
  | fuel + 1, .openMap :: ts =>
      (readFlowMembers fuel ts).map fun (members, rest) => (.map members, rest)
  | _ + 1, _ => none

def readFlowItems : (fuel : Nat) → List Token → Option (List Node × List Token)
  | 0, _ => none
  | _ + 1, .closeSeq :: ts => some ([], ts)
  | fuel + 1, ts => do
      match ← readFlowItem fuel ts with
      | (item, .comma :: rest) =>
          let (items, rest) ← readFlowItems fuel rest
          return (item :: items, rest)
      | (item, .closeSeq :: rest) => return ([item], rest)
      | _ => none

/-- A key may stand in a list, and makes a map of one member there. -/
def readFlowItem : (fuel : Nat) → List Token → Option (Node × List Token)
  | 0, _ => none
  | fuel + 1, .key :: ts => do
      let (key, rest) ← readFlow fuel ts
      let (value, rest) ← readFlowValue fuel rest
      return (.map [(key, value)], rest)
  | fuel + 1, ts => readFlow fuel ts

def readFlowMembers : (fuel : Nat) → List Token → Option (List (Node × Node) × List Token)
  | 0, _ => none
  | _ + 1, .closeMap :: ts => some ([], ts)
  | fuel + 1, ts => do
      match ← readFlowMember fuel ts with
      | (member, .comma :: rest) =>
          let (members, rest) ← readFlowMembers fuel rest
          return (member :: members, rest)
      | (member, .closeMap :: rest) => return ([member], rest)
      | _ => none

/-- A member without a colon has a key, but no value. -/
def readFlowMember : (fuel : Nat) → List Token → Option ((Node × Node) × List Token)
  | 0, _ => none
  | fuel + 1, .key :: ts => do
      let (key, rest) ← readFlowPart fuel ts
      let (value, rest) ← readFlowValue fuel rest
      return ((key, value), rest)
  | fuel + 1, ts => (readFlow fuel ts).map fun (key, rest) => ((key, Node.nothing), rest)

def readFlowValue : (fuel : Nat) → List Token → Option (Node × List Token)
  | 0, _ => none
  | fuel + 1, .value :: ts => readFlowPart fuel ts
  | _ + 1, ts => some (Node.nothing, ts)

def readFlowPart : (fuel : Nat) → List Token → Option (Node × List Token)
  | 0, _ => none
  | fuel + 1, ts =>
      if ts.head?.any [Token.value, .comma, .closeSeq, .closeMap].contains then
        some (Node.nothing, ts)
      else readFlow fuel ts

end

mutual

/-- A node outside brackets. The dashes of a list under a key may stand in the column of the key;
no token starts or ends that list. -/
def readBlock : (fuel : Nat) → (underKey : Bool) → List Token → Option (Node × List Token)
  | 0, _, _ => none
  | fuel + 1, _, .startItems :: ts =>
      (readItems fuel ts).map fun (items, rest) => (.seq items, rest)
  | fuel + 1, _, .startMembers :: ts =>
      (readMembers fuel ts).map fun (members, rest) => (.map members, rest)
  | fuel + 1, true, .item :: ts =>
      (readLooseItems fuel (.item :: ts)).map fun (items, rest) => (.seq items, rest)
  | fuel + 1, _, ts => readFlow fuel ts

def readItems : (fuel : Nat) → List Token → Option (List Node × List Token)
  | 0, _ => none
  | fuel + 1, .item :: ts => do
      let (item, rest) ← readPart fuel false ts
      let (items, rest) ← readItems fuel rest
      return (item :: items, rest)
  | _ + 1, .finish :: ts => some ([], ts)
  | _ + 1, _ => none

def readLooseItems : (fuel : Nat) → List Token → Option (List Node × List Token)
  | 0, _ => none
  | fuel + 1, .item :: ts => do
      let (item, rest) ← readPart fuel false ts
      let (items, rest) ← readLooseItems fuel rest
      return (item :: items, rest)
  | _ + 1, ts => some ([], ts)

def readMembers : (fuel : Nat) → List Token → Option (List (Node × Node) × List Token)
  | 0, _ => none
  | fuel + 1, .key :: ts => do
      let (key, rest) ← readPart fuel true ts
      let (value, rest) ← readValue fuel rest
      let (members, rest) ← readMembers fuel rest
      return ((key, value) :: members, rest)
  | _ + 1, .finish :: ts => some ([], ts)
  | _ + 1, _ => none

def readValue : (fuel : Nat) → List Token → Option (Node × List Token)
  | 0, _ => none
  | fuel + 1, .value :: ts => readPart fuel true ts
  | _ + 1, ts => some (Node.nothing, ts)

def readPart : (fuel : Nat) → (underKey : Bool) → List Token → Option (Node × List Token)
  | 0, _, _ => none
  | fuel + 1, underKey, ts =>
      if ts.head?.any [Token.key, .value, .finish].contains || !underKey && ts.head? == some .item
      then some (Node.nothing, ts)
      else readBlock fuel underKey ts

end

def read? (text : String) : Option Node := do
  let tokens ← Token.ofText? text
  let content := match tokens with
    | .documentStart :: ts => ts
    | ts => ts
  let (node, rest) ← readBlock (4 * content.length + 4) false content
  if rest.all (· == .documentEnd) then some node else none

end EventContexts.Yaml
