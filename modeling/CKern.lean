import CKern.Math.Bigint.DivMod
import CKern.Math.Bigint.MultSplit
import CKern.Math.Float.Decimal.MultOverflow
import CKern.Math.Float.Decimal.Divi32
import CKern.Math.Float.Decimal.SetPchar
import CKern.String.Base64decode
import CKern.Io.Reader.Filereader
import CKern.String.Strsearch
import CKern.String.Cstring
import CKern.Memory.Wbuffer
import CKern.Io.Reader.Csvfilereader
import CKern.Io.Reader.Utf8reader
import CKern.Io.Www.UriEncoded
import CKern.Io.Www.UriSegments
import CKern.Io.Iosys.Iobuffer
import CKern.Math.Hash.Sha1
import CKern.Math.Hash.Crc32
import CKern.String.Utf8Coding
import CKern.String.Utf8Find
import CKern.Platform.Sync.Eventcount
import CKern.Platform.Sync.RwlockFair
import CKern.Ds.Inmem.Arraysf
import CKern.Ds.Inmem.Arraystf
import CKern.Ds.Inmem.ArraystfInsert
import CKern.Ds.Inmem.ArraystfIter
import CKern.Ds.Inmem.Heap
import CKern.Ds.Inmem.SplaytreeRemovenodes
import CKern.Ds.Inmem.ExthashIter
import CKern.Ds.Inmem.QueueResize
import CKern.Ds.Inmem.Blockarray
import CKern.Ds.Inmem.Binarystack
import CKern.Ds.Inmem.DlistRuns
import CKern.Ds.Inmem.SlistRuns
import CKern.Ds.Inmem.Olist
import CKern.Ds.Inmem.Trie
import CKern.Ds.Inmem.PatriciatrieIter
import CKern.Main.Tools.GenmakeVars
import CKern.Main.Tools.TextdbMacro
import CKern.Ds.Inmem.SuffixtreeQuery
import CKern.Platform.Sync.Thrmutex
import CKern.Proglang.Regexpr
import CKern.Proglang.AutomatMatch
import CKern.Proglang.AutomatMman
import CKern.Ds.Sort.MergesortSort
import CKern.Math.Bigint.Compare
import CKern.Math.Float.Decimal.FirstDigits
import CKern.Math.Bigint.Runs
import CKern.Math.Int.Factorise
import CKern.Math.Int.Sqroot
