import Wisebot.Agent.Page
import Wisebot.Sfs.Totals
import Wisebot.Did.Did2
import Wisebot.Did.DocIds
import Wisebot.Ifs.Numbering
import Wisebot.Ifs.Exits
import Wisebot.Lexicon.FullDb
import Wisebot.Qp.AndNot
import Wisebot.Replication.Alignment
import Wisebot.Vbm.Slices
import Wisebot.Vdoc.Ordering
import Wisebot.Vrfi.Tiles
import Wisebot.Vrm.Extents
import Wisebot.Rmac.Handover
import Wisebot.Rmac.RemoteAnalysis
import Wisebot.Sfs.Probes
import Wisebot.Sfs.Areas
import Wisebot.Hash.Standing
import Wisebot.Common.MemfileRuns
import Wisebot.Proximity.Searches
import Wisebot.Ranking.Reduction
import Wisebot.Vdoc.Comparisons
import Wisebot.Vdoc.GroupCounts
import Wisebot.Query.Ending
import Wisebot.Highlight.Restored
import Wisebot.Tokenizer.Calls
import Wisebot.Qpp.Infix
import Wisebot.Docattr.MaskedUpdate
import Wisebot.Agent.Survival
import Wisebot.Xml.Conversion
import Wisebot.SimpleXml.Safety
import Wisebot.Cdm.Xmldoc
import Wisebot.Docattr.RecordArray
import Wisebot.Http.Headers
import Wisebot.Httpd.ObjectIds
import Wisebot.Frm.Records
import Wisebot.Extractor.Compounds
import Wisebot.Common.Restored
import Wisebot.Common.Config
import Wisebot.Extractor.GetTokens
import Wisebot.Extractor.Truncation
import Wisebot.Common.HangulOrder
import Wisebot.Qp.CutString
import Wisebot.Qp.Retrieval
import Wisebot.Qp.Session
import Wisebot.Qp.StartComment
import Wisebot.Extractor.Sentences
import Wisebot.Http.ReceiveUntil
import Wisebot.Httpd.FieldList
