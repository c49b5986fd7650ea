import ClientTable.Proofs.IndexKeys

namespace ClientTable

open Attempt Reading

namespace IntKind

end IntKind

namespace Record

variable {r : Record} {kind : IntKind} {bits : BitVec kind.bits} {k : UInt32}

end Record

namespace Reader

variable {schema : Schema} {reader : Reader} {records : Records} {count : Nat} {h : Header}
  {layout : SectionLayout} {s : Section} {row : Row} {base : Record} {k : UInt32}

end Reader

end ClientTable
