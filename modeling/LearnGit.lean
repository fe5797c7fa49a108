import LearnGit.Lib.Bytes
import LearnGit.Lib.Numeral
import LearnGit.Lib.Machine
import LearnGit.Lib.Ring
import LearnGit.Lib.Chain
import LearnGit.Lib.FileMap
import LearnGit.Lib.Loop
import LearnGit.Lib.Slice
import LearnGit.Lib.GridRoutes
import LearnGit.Lib.Tokens
import LearnGit.Lib.Checked
import LearnGit.Lib.BinaryPower
import LearnGit.Lib.Parts
import LearnGit.Uart.Link.Packet
import LearnGit.Uart.Link.World
import LearnGit.Uart.Link.Receive
import LearnGit.Uart.Link.ThreadRx
import LearnGit.Uart.Link.ThreadTx
import LearnGit.Uart.Link.Transmit
import LearnGit.Uart.Link.StopAndWait
import LearnGit.Uart.Tty.TtyProto
import LearnGit.Uart.App.AppProto
import LearnGit.Uart.App.Accesses
import LearnGit.Uart.App.Images
import LearnGit.Uart.App.FixedFile
import LearnGit.Uart.App.ImageTransfer
import LearnGit.Uart.App.ExtendedCmd
import LearnGit.Uart.App.Login
import LearnGit.Uart.App.StaleImages
import LearnGit.Uart.App.ImageBooks
import LearnGit.FileTransfer.Basic
import LearnGit.FileTransfer.StructMessage
import LearnGit.FileTransfer.TextHeader
import LearnGit.FileTransfer.SplitStr
import LearnGit.SemProduceConsume.Prodcons5
import LearnGit.WideChar.PhoneCommon
import LearnGit.WideChar.LanStrings
import LearnGit.WideChar.HexToStr
import LearnGit.WideChar.PhoneBuffers
import LearnGit.WideChar.JavascriptTransfer
import LearnGit.Sorting.SortProc
import LearnGit.Sorting.MergesortNonrecursion
import LearnGit.MaxSubsequenceSum
import LearnGit.DynamicProgramming.LongestIncreasingSubsequence
import LearnGit.DynamicProgramming.CutRod
import LearnGit.DynamicProgramming.AvoidRoads
import LearnGit.DynamicProgramming.MatrixStudy
import LearnGit.DynamicProgramming.CutRodSolution
import LearnGit.DynamicProgramming.FewestCoins
import LearnGit.GitPack.ParsePack
import LearnGit.GitPack.ParseIndex
import LearnGit.Fsm.DeleteComment
import LearnGit.Proofs.Uart.Codec
import LearnGit.Proofs.Uart.DataList
import LearnGit.Proofs.Uart.ReceiveList
import LearnGit.Proofs.Uart.ReceiveRefine
import LearnGit.Proofs.Uart.Duplicates
import LearnGit.Proofs.Uart.ThreadRx
import LearnGit.Proofs.Uart.RxProgress
import LearnGit.Proofs.Uart.ReadyMarks
import LearnGit.Proofs.Uart.Locks
import LearnGit.Proofs.Uart.RoundTrip
import LearnGit.Proofs.Uart.StopAndWait
import LearnGit.Proofs.Uart.ThreadTx
import LearnGit.Proofs.Uart.FixedFile
import LearnGit.Proofs.Uart.ImageTransfer
import LearnGit.Proofs.Uart.Decoding
import LearnGit.Proofs.Uart.BitFlip
import LearnGit.Proofs.Uart.Unstuffing
import LearnGit.Proofs.Uart.StartByte
import LearnGit.Proofs.Uart.CrcStrength
import LearnGit.Proofs.Uart.WritePort
import LearnGit.Proofs.Uart.Listen
import LearnGit.Proofs.Uart.ExtendedCmd
import LearnGit.Proofs.Uart.Login
import LearnGit.Proofs.Uart.StaleImages
import LearnGit.Proofs.Uart.ImageBooks
import LearnGit.Proofs.FileTransfer.StructMessage
import LearnGit.Proofs.FileTransfer.TextHeader
import LearnGit.Proofs.FileTransfer.SplitStr
import LearnGit.Proofs.SemProduceConsume.Prodcons5
import LearnGit.Proofs.WideChar.PhoneCommon
import LearnGit.Proofs.WideChar.LanStrings
import LearnGit.Proofs.WideChar.HexToStr
import LearnGit.Proofs.WideChar.PhoneBuffers
import LearnGit.Proofs.WideChar.JavascriptLine
import LearnGit.Proofs.WideChar.JavascriptTransfer
import LearnGit.Proofs.Sorting.SortProc
import LearnGit.Proofs.MaxSubsequenceSum
import LearnGit.Proofs.DynamicProgramming.LongestIncreasingSubsequence
import LearnGit.Proofs.DynamicProgramming.CutRod
import LearnGit.Proofs.DynamicProgramming.AvoidRoads
import LearnGit.Proofs.DynamicProgramming.AvoidRoadsImprove
import LearnGit.Proofs.DynamicProgramming.MatrixStudy
import LearnGit.Proofs.DynamicProgramming.CutRodSolution
import LearnGit.Proofs.DynamicProgramming.CutCost
import LearnGit.Proofs.DynamicProgramming.FewestCoins
import LearnGit.Proofs.GitPack.ParsePack
import LearnGit.Proofs.GitPack.ParseIndex
import LearnGit.Proofs.Fsm.DeleteComment
import LearnGit.DynamicProgramming.MatrixChainOrder
import LearnGit.Lib.Bracketing
import LearnGit.Proofs.DynamicProgramming.MatrixChainOrder
import LearnGit.Proofs.Sorting.MergesortNonrecursion
import LearnGit.DynamicProgramming.Unweighted
import LearnGit.DynamicProgramming.BFS
import LearnGit.DynamicProgramming.ChessMetric
import LearnGit.DynamicProgramming.ZigZag
import LearnGit.DynamicProgramming.BadNeighbors
import LearnGit.DynamicProgramming.EditDistance
import LearnGit.DynamicProgramming.LongestCommonSubsequence
import LearnGit.Lib.BreadthFirst
import LearnGit.Proofs.DynamicProgramming.Unweighted
import LearnGit.Proofs.DynamicProgramming.BFS
import LearnGit.Lib.Walks
import LearnGit.Proofs.DynamicProgramming.ChessMetric
import LearnGit.Proofs.DynamicProgramming.ZigZag
import LearnGit.Lib.Spaced
import LearnGit.Proofs.DynamicProgramming.BadNeighbors
import LearnGit.Lib.EditDistance
import LearnGit.Proofs.DynamicProgramming.EditDistance
import LearnGit.Lib.CommonSubsequence
import LearnGit.Proofs.DynamicProgramming.LongestCommonSubsequence
import LearnGit.DynamicProgramming.PowerPartition
import LearnGit.Lib.PowerSums
import LearnGit.Proofs.DynamicProgramming.ModularMatrix
import LearnGit.Proofs.DynamicProgramming.MatrixOperators
import LearnGit.Proofs.DynamicProgramming.PowerPartition
import LearnGit.ScanfReg.MacPlusPlus
import LearnGit.Proofs.ScanfReg.MacPlusPlus
import LearnGit.Lib.Blocks
import LearnGit.Lib.SecureHash
import LearnGit.Git.Sha1
import LearnGit.Proofs.Git.Sha1
import LearnGit.Git.CsumFile
import LearnGit.Proofs.Git.CsumFile
import LearnGit.Git.Delta
import LearnGit.Git.DiffDelta
import LearnGit.Proofs.Git.Delta
import LearnGit.Proofs.Git.DiffDelta
import LearnGit.Uart.App.Messages
import LearnGit.Uart.System
import LearnGit.Proofs.Uart.Arrivals
import LearnGit.Proofs.Uart.InTime
